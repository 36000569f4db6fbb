import Ratchet.Network.Draw
import Ratchet.Network.Rate

/-!
# Unreliable networks

A network takes messages and hands them out again, one at a time.  On the way it may lose a
message, duplicate it, or let it change places with one that is still in flight.  What happens is
decided by the rates of its configuration and a stream of random words, so a run can be repeated.

Lost messages are kept aside, and can be put back in flight.

## Main definitions

* `Network.Config`: the rates and the seed.
* `Network`, with `Network.send`, `Network.receive?` and `Network.retransmitLost`.
-/

namespace Ratchet

namespace Network

/-- How unreliable a network is. -/
structure Config where
  loss : Rate
  duplication : Rate
  /-- How often a message changes places with an earlier one. -/
  reordering : Rate
  seed : UInt64

namespace Config

/-- A network that delivers every message once and in order. -/
def reliable : Config := ⟨.never, .never, .never, 12345⟩

/-- A network that only loses messages. -/
def lossy (rate : Rate) : Config := { reliable with loss := rate }

/-- A network that only duplicates messages. -/
def duplicating (rate : Rate) : Config := { reliable with duplication := rate }

/-- A network that loses, duplicates and reorders messages. -/
def chaotic : Config :=
  { reliable with
    loss := .ofRat (1 / 10)
    duplication := .ofRat (2 / 10)
    reordering := .ofRat (3 / 10) }

end Config

end Network

/-- A network with messages of type `M`. -/
structure Network (M : Type) where
  config : Network.Config
  draws : Nat → UInt64
  used : Nat
  /-- The messages in flight, the next one to be received first. -/
  inFlight : List M
  /-- The messages that were lost, the earliest one first. -/
  lost : List M
  sent : Nat

namespace Network

variable {M : Type}

/-- A fresh network over a given stream of random words. -/
def withDraws (config : Config) (draws : Nat → UInt64) : Network M where
  config := config
  draws := draws
  used := 0
  inFlight := []
  lost := []
  sent := 0

/-- A fresh network, whose random words come from the seed. -/
def ofConfig (config : Config) : Network M :=
  withDraws config (Draw.ofSeed config.seed)

/-- Lets a rate decide.  A rate that can never say yes uses no random word. -/
def roll (net : Network M) (rate : Rate) : Bool × Network M :=
  if rate.isPositive then
    (rate.accepts (net.draws net.used), { net with used := net.used + 1 })
  else (false, net)

/-- A list with the elements at two positions exchanged. -/
def swapAt (ms : List M) (i j : Nat) : List M :=
  match ms[i]?, ms[j]? with
  | some a, some b => (ms.set i b).set j a
  | _, _ => ms

/-- Exchanges the last message in flight with one before it, drawn at random. -/
def swapLast (net : Network M) : Network M :=
  let last := net.inFlight.length - 1
  let (place, used) := Draw.below net.draws last net.used
  { net with used := used, inFlight := swapAt net.inFlight place last }

/-- Sends a message: it is lost, or it is put in flight once or twice.  If it is not alone there,
it may then change places with another message. -/
def send (net : Network M) (m : M) : Network M :=
  let net := { net with sent := net.sent + 1 }
  let (isLost, net) := net.roll net.config.loss
  if isLost then { net with lost := net.lost ++ [m] }
  else
    let (isDoubled, net) := net.roll net.config.duplication
    let copies := if isDoubled then [m, m] else [m]
    let net := { net with inFlight := net.inFlight ++ copies }
    if 1 < net.inFlight.length then
      let (isMoved, net) := net.roll net.config.reordering
      if isMoved then net.swapLast else net
    else net

/-- Sends messages one after the other. -/
def sendAll (net : Network M) (ms : List M) : Network M :=
  ms.foldl send net

/-- Takes the next message out of the network. -/
def receive? (net : Network M) : Option (M × Network M) :=
  match net.inFlight with
  | [] => none
  | m :: ms => some (m, { net with inFlight := ms })

/-- Takes all messages out of the network. -/
def receiveAll (net : Network M) : List M × Network M :=
  (net.inFlight, { net with inFlight := [] })

/-- Puts the lost messages back in flight, behind all others. -/
def retransmitLost (net : Network M) : Network M :=
  { net with inFlight := net.inFlight ++ net.lost, lost := [] }

end Network

end Ratchet
