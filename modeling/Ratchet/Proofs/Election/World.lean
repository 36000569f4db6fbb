import Ratchet.Proofs.Election.Member

/-!
# Members that exchange messages

A world has members and all messages that they have ever sent.  Members are told who their peers
are, get election timeouts, receive messages and tick, one member and one event at a time.

What a tick queues on a channel counts as sent from then on, even before it stands in the channel.
Nothing ever happens to a sent message: it can be delivered at any later time, any number of times,
or never.

An event that is not possible, or that breaks off with a fault, has no outcome.
-/

namespace Ratchet.Election

/-! ## Messages -/

/-- A message of any type. -/
structure Message where
  type : MessageType
  content : type.Carrier

/-- The address that a message is meant for. -/
def Message.addr (m : Message) : String := m.type.addr m.content

/-- The message that is put on a channel by a deposit. -/
def messageOf? (d : Deposit) : Option Message :=
  match d.write with
  | .add (.set (.message type)) content => some ⟨type, content⟩
  | _ => none

/-- The channel for messages of a type. -/
def Channels.channel? (c : Channels) : (t : MessageType) → Option (Handle (.set (.message t)))
  | .voteRequest => some c.voteRequest
  | .voteReply => some c.voteReply
  | .appendRequest => some c.appendRequest
  | .appendReply => some c.appendReply
  | _ => none

/-! ## Worlds -/

/-- A member with the program that it is declared on. -/
structure Seat where
  member : Member
  program : Program
  /-- The addresses that the member was told are those of its peers. -/
  told : List String

/-- Members, and all messages that they have sent. -/
structure World where
  seats : List Seat
  sent : List Message

/-- The addresses of all members. -/
def World.addrs (w : World) : List String := w.seats.map fun s => s.program.addr

/-- What a member is told about its peers. -/
inductive Introduction where
  | one (peer : String)
  | all (peers : GrowSet String)

namespace Introduction

def addrs : Introduction → List String
  | one peer => [peer]
  | all peers => peers.elements

def write : Introduction → Write
  | one peer => .add (.set .text) peer
  | all peers => .merge (.set .text) peers

end Introduction

/-- What happens to the member at a place. -/
inductive Event where
  /-- It is told about peers, at once or for its next tick. -/
  | introduce (place : Nat) (timing : Timing) (peers : Introduction)
  /-- It has waited too long for a leader. -/
  | timeout (place : Nat)
  /-- It receives one of the messages that were sent, in the order of sending. -/
  | deliver (place : Nat) (message : Nat)
  /-- It ticks, within a number of passes if its program has no bound of its own. -/
  | tick (place : Nat) (patience : Nat)

namespace Seat

/-- The program after the member is told about peers. -/
def introduce (s : Seat) (timing : Timing) (peers : Introduction) : Except Fault Program :=
  match timing with
  | .sameTick => do return (← s.program.depositNow s.member.peers.id peers.write).1
  | .nextTick => s.program.depositNext s.member.peers.id peers.write

/-- The program after the member receives a message, if the message is meant for it. -/
def receive? (s : Seat) (m : Message) : Option Program := do
  if m.addr = s.program.addr then
    let channel ← s.member.channels.channel? m.type
    (s.program.send channel m.content).toOption
  else none

/-- Whether the member was told about every other member. -/
def ready (w : World) (s : Seat) : Bool :=
  w.addrs.all fun addr => addr == s.program.addr || s.told.contains addr

end Seat

namespace World

/-- The world with another program at a place, where more messages were sent. -/
def put (w : World) (place : Nat) (s : Seat) (sent : List Message) : World where
  seats := w.seats.set place s
  sent := w.sent ++ sent

/-- The world after an event.  Members only tick once they know of every other member. -/
def perform (w : World) : Event → Option World
  | .introduce place timing peers => do
    let s ← w.seats[place]?
    let p ← (s.introduce timing peers).toOption
    return w.put place { s with program := p, told := s.told ++ peers.addrs } []
  | .timeout place => do
    let s ← w.seats[place]?
    let p ← (s.program.addNext s.member.electionTimeout true).toOption
    return w.put place { s with program := p } []
  | .deliver place message => do
    let s ← w.seats[place]?
    let m ← w.sent[message]?
    let p ← s.receive? m
    return w.put place { s with program := p } []
  | .tick place patience => do
    let s ← w.seats[place]?
    if s.ready w then
      let (p, _) ← (s.program.tick patience).toOption
      return w.put place { s with program := p } (p.pending.filterMap messageOf?)
    else none

/-- The world after a list of events. -/
def run : World → List Event → Option World
  | w, [] => some w
  | w, event :: events => do run (← w.perform event) events

end World

/-- The member was just declared on a program of its own. -/
def Seat.Fresh (s : Seat) : Prop :=
  s.told = [] ∧ ∃ scope id addr limit,
    (Member.declare scope).runOn (.create id addr limit) = (.ok s.member, s.program)

/-- The members have different addresses, and nothing has happened yet. -/
structure World.Initial (w : World) : Prop where
  nodup : w.addrs.Nodup
  fresh : ∀ s ∈ w.seats, s.Fresh
  sent : w.sent = []

namespace Member

/-- Whether a member has won a term. -/
def hasWon (m : Member) (p : Program) (term : Int64) : Except Fault Bool := do
  return ((← p.facts.get m.won).get? (termKey term)).any Flag.value

end Member

end Ratchet.Election
