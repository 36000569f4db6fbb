import Ratchet.Program.Setup

/-!
# Counting voters in many races

One count runs per race, all against the same threshold.  A race that has votes but is still below
the threshold is listed as not done.
-/

namespace Ratchet

/-- Independent counts of voters, one per race. -/
structure RaceTally where
  /-- The votes, deposited from outside. -/
  votes : Handle (.set .raceVote)
  need : Handle .max
  /-- Whether each race has enough voters, for reading from outside. -/
  done : Handle (.map .flag)
  /-- The voters seen so far in each race. -/
  totals : Handle (.map (.set .text))

namespace RaceTally

/-- A vote as an entry of the totals. -/
def countVote (vote : RaceVote) : MapEntry (GrowSet String) :=
  ⟨vote.race, .singleton vote.voter⟩

/-- Whether a race has enough voters. -/
def judgeRace (need : Handle .max) (facts : Facts) (race : MapEntry (GrowSet String)) :
    Except Fault (Option (MapEntry Flag)) := do
  let threshold ← facts.get need
  return some ⟨race.key, ⟨decide (threshold.value.toInt ≤ race.value.size)⟩⟩

/-- Declares the counts. -/
def declare (scope : String) : Setup RaceTally := do
  let votes ← Setup.declare (.set .raceVote) (scope ++ "MultiTallyVote")
  Setup.mark .input votes
  let need ← Setup.declare .max (scope ++ "MultiTallyNeed")
  let done ← Setup.declare (.map .flag) (scope ++ "MultiTallyDone")
  Setup.mark .output done
  let totals ← Setup.declare (.map (.set .text)) (scope ++ "multiTallyTotal")
  Setup.join (.of votes) totals .sameTick fun _ vote => .ok (some (countVote vote))
  Setup.join (.of totals) done .sameTick (judgeRace need)
  return ⟨votes, need, done, totals⟩

/-- Whether a race has enough voters. -/
def isDone (count : RaceTally) (p : Program) (race : String) : Except Fault Bool := do
  return ((← p.facts.get count.done).get? race).any Flag.value

end RaceTally

end Ratchet
