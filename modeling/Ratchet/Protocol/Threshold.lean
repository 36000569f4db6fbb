import Ratchet.Program.Setup

/-!
# Counting voters against a threshold

Votes are copied into a running total of distinct voters.  A flag is raised once the total has
reached the threshold, and it stays up.  Quorums and tallies are both of this form; they differ in
the names of their relations.

## Main definitions

* `Threshold`: the relations of a count.
* `Threshold.tally`, `Threshold.quorum`: the two ways to declare one.
-/

namespace Ratchet

/-- A count of distinct voters against a threshold. -/
structure Threshold where
  /-- The voters, deposited from outside. -/
  votes : Handle (.set .text)
  need : Handle .max
  /-- Whether enough voters were seen, for reading from outside. -/
  done : Handle .flag
  /-- The voters seen so far. -/
  total : Handle (.set .text)

namespace Threshold

/-- Whether the voters seen so far are enough. -/
def reached (total : Handle (.set .text)) (need : Handle .max) (facts : Facts) :
    Except Fault (Option Bool) := do
  let voters ← facts.get total
  let threshold ← facts.get need
  return some (decide (threshold.value.toInt ≤ voters.size))

/-- Declares a count under the given relation names. -/
def declare (votes need done total : String) : Setup Threshold := do
  let votes ← Setup.declare (.set .text) votes
  Setup.mark .input votes
  let need ← Setup.declare .max need
  let done ← Setup.declare .flag done
  Setup.mark .output done
  let total ← Setup.declare (.set .text) total
  Setup.copy votes total .sameTick
  Setup.join .unit done .sameTick fun facts () => reached total need facts
  return ⟨votes, need, done, total⟩

/-- Declares a tally. -/
def tally (scope : String) : Setup Threshold :=
  declare (scope ++ "TallyVote") (scope ++ "TallyNeed") (scope ++ "TallyDone")
    (scope ++ "tallyTotal")

/-- Declares a quorum. -/
def quorum (scope : String) : Setup Threshold :=
  declare (scope ++ "QuorumVote") (scope ++ "QuorumNeeded") (scope ++ "QuorumReached")
    (scope ++ "quorumTally")

/-- Whether enough voters have been seen. -/
def isDone (count : Threshold) (p : Program) : Except Fault Bool := do
  return (← p.facts.get count.done).value

end Threshold

end Ratchet
