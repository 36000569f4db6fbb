import Ratchet.Proofs.KeyValue.Exchange

/-!
# Replicas that exchange snapshots

A world has replicas and all snapshots that they have ever shipped.  Puts and requests for
snapshots are sent to the replicas, shipped snapshots are delivered, and replicas tick, one replica
and one event at a time.

What a tick queues on the snapshot channel counts as shipped from then on.  Nothing ever happens to
a shipped snapshot: it can be delivered at any later time, any number of times, or never.  Messages
may also go to a replica that they are not addressed to, which does not care.

Beside a replica stands which puts it has heard of, its history.  With a snapshot it hears of all
puts that the sender had heard of when that snapshot was shipped.  Histories are only written down:
no event depends on them.

An event that is not possible, or that breaks off with a fault, has no outcome.  Neither has a tick
of a replica that is not allowed a single pass.  Any other tick that needs more passes than allowed
fails, but it is an event like those that do not.
-/

namespace Ratchet.KeyValue

/-- A replica with the program that it is declared on. -/
structure Seat where
  replica : SyncReplica
  program : Program
  /-- The puts that the replica has heard of. -/
  history : List Put
  /-- The puts that it is going to hear of when it ticks. -/
  arriving : List Put

/-- A snapshot, and what its sender had heard of. -/
structure Shipment where
  snapshot : Snapshot
  history : List Put

/-- Replicas, and all snapshots that they have shipped. -/
structure World where
  seats : List Seat
  shipped : List Shipment

/-- What happens to the replica at a place. -/
inductive Event where
  | put (place : Nat) (put : Put)
  | request (place : Nat) (request : SnapshotRequest)
  /-- It receives one of the snapshots that were shipped, in the order of shipping. -/
  | deliver (place : Nat) (shipment : Nat)
  /-- It ticks, within a number of passes if its program has no bound of its own. -/
  | tick (place : Nat) (patience : Nat)

/-- The put that is sent in an event. -/
def Event.put? : Event → Option Put
  | .put _ sent => some sent
  | _ => none

namespace Seat

/-- The replica after a message is sent to it.  It is going to hear of the puts that the message
tells, if that is addressed to it. -/
def receive {f : FactType} (s : Seat) (channel : Handle (.set f)) (message : f.Carrier)
    (addr : String) (puts : List Put) : Option Seat := do
  let p ← (s.program.send channel message).toOption
  let heard := if addr = s.program.addr then puts else []
  return { s with program := p, arriving := s.arriving ++ heard }

/-- The replica after a tick. -/
def tick (s : Seat) (patience : Nat) : Option Seat :=
  if s.program.passLimit = some 0 then none
  else do
    let (p, _) ← (s.program.tick patience).toOption
    return { s with program := p, history := s.history ++ s.arriving, arriving := [] }

/-- The snapshots that the replica has queued. -/
def shipments (s : Seat) : List Shipment :=
  (s.program.waiting s.replica.snapshot).map fun snapshot => ⟨snapshot, s.history⟩

end Seat

namespace World

/-- The world with another replica at a place, where more snapshots were shipped. -/
def update (w : World) (place : Nat) (s : Seat) (shipped : List Shipment) : World where
  seats := w.seats.set place s
  shipped := w.shipped ++ shipped

/-- The world after an event. -/
def perform (w : World) : Event → Option World
  | .put place put => do
    let s ← w.seats[place]?
    let s ← s.receive s.replica.replica.channels.put put put.addr [put]
    return w.update place s []
  | .request place request => do
    let s ← w.seats[place]?
    let s ← s.receive s.replica.snapshotRequest request request.addr []
    return w.update place s []
  | .deliver place shipment => do
    let s ← w.seats[place]?
    let ⟨snapshot, history⟩ ← w.shipped[shipment]?
    let s ← s.receive s.replica.snapshot snapshot snapshot.addr history
    return w.update place s []
  | .tick place patience => do
    let s ← w.seats[place]?
    let s ← s.tick patience
    return w.update place s s.shipments

/-- The world after a list of events. -/
def run : World → List Event → Option World
  | w, [] => some w
  | w, event :: events => do run (← w.perform event) events

end World

/-- The replica was just declared on a program of its own. -/
def Seat.Fresh (s : Seat) : Prop :=
  s.history = [] ∧ s.arriving = [] ∧ ∃ scope id addr limit,
    (SyncReplica.declare scope).runOn (.create id addr limit) = (.ok s.replica, s.program)

/-- Nothing has happened yet. -/
structure World.Initial (w : World) : Prop where
  fresh : ∀ s ∈ w.seats, s.Fresh
  shipped : w.shipped = []

end Ratchet.KeyValue
