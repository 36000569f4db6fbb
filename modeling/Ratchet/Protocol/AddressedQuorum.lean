import Ratchet.Program.Setup

/-!
# Quorums by message

Votes arrive as messages from other nodes.  The votes that are addressed to the node are kept and
counted, and once enough distinct votes were heard, the result is sent to a fixed address in every
tick.
-/

namespace Ratchet

/-- The channels of a quorum. -/
structure QuorumChannels where
  /-- Votes on their way to where they are counted. -/
  vote : Handle (.set (.message .quorumVote))
  /-- Results on their way to where they are awaited. -/
  result : Handle (.set (.message .quorumResult))

/-- Declares the channels of a quorum only, for voters and for those who await results. -/
def QuorumChannels.declare (scope : String) : Setup QuorumChannels := do
  let vote ← Setup.channel (.message .quorumVote) (scope ++ "QuorumVote")
  let result ← Setup.channel (.message .quorumResult) (scope ++ "QuorumResult")
  return ⟨vote, result⟩

/-- A quorum that is counted by message. -/
structure AddressedQuorum where
  channels : QuorumChannels
  votes : Handle (.set (.message .quorumVote))
  tally : Handle .max
  /-- Whether they are enough, for reading from outside. -/
  reached : Handle .flag

namespace AddressedQuorum

/-- Keeps the votes that are addressed to this node. -/
def keepVote (here : String) (vote : QuorumVote) : Option QuorumVote :=
  if vote.addr = here then some vote else none

/-- The number of votes. -/
def countVotes (votes : Handle (.set (.message .quorumVote))) (facts : Facts) :
    Except Fault (Option Int64) := do
  return some (MaxInt.ofCount (← facts.get votes).size).value

/-- Whether the votes are enough. -/
def compareTally (tally : Handle .max) (size : Int64) (facts : Facts) :
    Except Fault (Option Bool) := do
  return some (decide (size ≤ (← facts.get tally).value))

/-- The result, once there is one. -/
def report (reached : Handle .flag) (resultAddr : String) (facts : Facts) :
    Except Fault (Option QuorumResult) := do
  return if (← facts.get reached).value then some ⟨resultAddr⟩ else none

/-- Declares a quorum of `size` distinct votes, whose result goes to `resultAddr`. -/
def declare (scope : String) (size : Int64) (resultAddr : String) : Setup AddressedQuorum := do
  let channels ← QuorumChannels.declare scope
  Setup.mark .input channels.vote
  let votes ← Setup.declare (.set (.message .quorumVote)) (scope ++ "quorumVotes")
  let tally ← Setup.declare .max (scope ++ "quorumTally")
  let reached ← Setup.declare .flag (scope ++ "quorumReached")
  Setup.mark .output reached
  let here ← Setup.addr
  Setup.join (.of channels.vote) votes .sameTick fun _ vote => .ok (keepVote here vote)
  Setup.join .unit tally .sameTick fun facts () => countVotes votes facts
  Setup.join .unit reached .sameTick fun facts () => compareTally tally size facts
  Setup.join .unit channels.result .nextTick fun facts () => report reached resultAddr facts
  return ⟨channels, votes, tally, reached⟩

/-- Whether the quorum was reached. -/
def isReached (quorum : AddressedQuorum) (p : Program) : Except Fault Bool := do
  return (← p.facts.get quorum.reached).value

/-- The number of votes counted. -/
def count (quorum : AddressedQuorum) (p : Program) : Except Fault Int64 := do
  return (← p.facts.get quorum.tally).value

end AddressedQuorum

end Ratchet
