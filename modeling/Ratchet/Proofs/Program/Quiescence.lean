import Mathlib.Data.List.Forall2
import Ratchet.Program.Setup
import Ratchet.Proofs.Program.Fixpoint
import Ratchet.Proofs.Program.Scratch

/-!
# What a completed tick leaves behind

Nothing is assumed about the rules here; they need not be monotone.  A tick then need not compute a
least fixpoint, but it still ends in a fixpoint.  The last pass changed nothing at all, so every
rule saw the very relations that the tick ends with, and `closed_of_pass` turns the absence of a
change into an equation for each of them.

The results for the next tick come from those relations too, one list for each rule
(`allConsequences_eq_ok`).  If they are empty and nothing is reset, then the next tick starts where
this one ended, and its first pass is its last one (`Program.tick_of_closed`).

## Main result

* `Program.tick_quiescent`: the relations, the queue and the report of a completed tick.
-/

namespace Ratchet

variable {program : Nat} {rs : List Rule} {S T : Store}

/-- The queue is made up of the results of the rules, one list after the other. -/
theorem allConsequences_eq_ok {facts : Facts} {queue : List Deposit} :
    allConsequences facts rs = .ok queue ↔ ∃ results,
      List.Forall₂ (fun r ds => r.consequences facts = .ok ds) rs results ∧
        queue = results.flatten := by
  induction rs generalizing queue with
  | nil =>
      constructor
      · rintro ⟨⟩
        exact ⟨[], .nil, rfl⟩
      · rintro ⟨_, ⟨⟩, rfl⟩
        rfl
  | cons r rs ih =>
      rw [allConsequences_cons]
      constructor
      · rintro ⟨ds, rest, hds, hrest, rfl⟩
        obtain ⟨results, hresults, rfl⟩ := ih.1 hrest
        exact ⟨ds :: results, .cons hds hresults, rfl⟩
      · rintro ⟨_, hresults, rfl⟩
        cases hresults with
        | @cons _ ds _ results hds hresults =>
            exact ⟨ds, results.flatten, hds, ih.2 ⟨results, hresults, rfl⟩, rfl⟩

/-- Passes that settle end with one that finds every rule closed, and their number counts that
one. -/
theorem passes_of_settle {limit count : Nat}
    (h : settle program rs limit 0 S = .ok (.stable T count)) :
    0 < limit ∧ passes program rs count S = .ok T ∧ ∀ r ∈ rs, r.Closed program T := by
  obtain ⟨n, T', hn, _, ⟨hlt, hclosed, heq⟩ | ⟨_, heq⟩⟩ := settle_eq_ok h
  · cases heq
    have hlast : passes program rs 1 T = .ok T :=
      passes_succ.2 ⟨T, false, pass_of_closed hclosed, rfl⟩
    refine ⟨by omega, ?_, hclosed⟩
    rw [Nat.zero_add]
    exact passes_add.2 ⟨T, hn, hlast⟩
  · cases heq

namespace Program

variable {p q : Program} {patience : Nat} {report : TickReport}

/-- A program on which nothing waits and nothing is reset, and whose rules of the same tick are
closed, takes one pass in which nothing happens. -/
theorem tick_of_closed {queue : List Deposit} (hlimit : 0 < p.passLimit.getD patience)
    (hreset : p.store.resetScratch = p.store) (hpending : p.pending = [])
    (hclosed : ∀ r ∈ p.sameTickRules, r.Closed p.id p.store)
    (hqueue : allConsequences ⟨p.id, p.store⟩ p.nextTickRules = .ok queue) :
    p.tick patience = .ok ({ p with pending := queue, ticks := p.ticks + 1 },
      .ok ⟨p.ticks, 1, 0, queue.length⟩) := by
  have hstart : p.store.resetScratch.depositAll p.id p.pending = .ok (p.store, 0) := by
    rw [hreset, hpending]
    rfl
  have hsettle : settle p.id p.sameTickRules (p.passLimit.getD patience) 0 p.store =
      .ok (.stable p.store 1) := by
    obtain ⟨limit, heq⟩ := Nat.exists_eq_succ_of_ne_zero (Nat.ne_of_gt hlimit)
    rw [heq, settle, pass_of_closed hclosed]
    rfl
  exact tick_eq_ok.2 ⟨p.store, 0, p.store, 1, queue, hstart, hsettle, hqueue, rfl, rfl⟩

/-- A set of given values, and the set of those that are used: the given ones, and zero as long as
none is given.  A value waits to be given.  The rule for zero is not monotone. -/
def fallback : Program :=
  let script : Setup Unit := do
    let given ← Setup.declare (.set .int) "given"
    let used ← Setup.declare (.set .int) "used"
    Setup.join .unit used .sameTick fun facts () => do
      return if (← facts.tuples given).isEmpty then some 0 else none
    Setup.copy given used .sameTick
  { (script.runOn (create 0 "n" none)).2 with pending := [⟨0, .add (.set .int) 7⟩] }

def fallbackGiven : Handle (.set .int) := ⟨⟨0, 0⟩⟩

def fallbackUsed : Handle (.set .int) := ⟨⟨0, 1⟩⟩

/-- A completed tick ends in a fixpoint and queues what follows from it, whatever the rules are.

The deposits that waited are made, each of them once, and then as many passes as the report tells
lead to the relations that the tick ends with.  No rule of the same tick changes these any more.
The queue consists of what the rules of the next tick ask for on them, rule by rule, and the tick
counts.  A second tick, with nothing queued and nothing to reset, takes one pass in which nothing
happens. -/
theorem tick_quiescent (h : p.tick patience = .ok (q, .ok report)) :
    (∃ start, p.store.resetScratch.depositAll p.id p.pending = .ok (start, report.applied) ∧
        passes p.id p.sameTickRules report.passes start = .ok q.store) ∧
      (∀ r ∈ p.sameTickRules, r.Closed p.id q.store) ∧
      (∃ results,
        List.Forall₂ (fun r ds => r.consequences ⟨p.id, q.store⟩ = .ok ds) p.nextTickRules results ∧
          q.pending = results.flatten) ∧
      report.queued = q.pending.length ∧ report.tick = p.ticks ∧ q.ticks = p.ticks + 1 ∧
      ∀ patience', 0 < patience' → (∀ s ∈ p.store, s.scratch = false) → q.pending = [] →
        q.tick patience' = .ok ({ q with ticks := q.ticks + 1 }, .ok ⟨q.ticks, 1, 0, 0⟩) := by
  obtain ⟨start, applied, store, count, queue, hstart, hsettle, hqueue, rfl, rfl⟩ := tick_eq_ok.1 h
  obtain ⟨hlimit, hpasses, hclosed⟩ := passes_of_settle hsettle
  refine ⟨⟨start, hstart, hpasses⟩, hclosed, allConsequences_eq_ok.1 hqueue, rfl, rfl, rfl, ?_⟩
  intro patience' hpatience hscratch hempty
  -- the marks of the relations are those from before the tick
  have hshape : p.store.SameShape store :=
    (sameShape_start hstart).trans (below_of_passes hpasses).sameShape
  have hscratch' : ∀ s ∈ store, s.scratch = false := hshape.forall_scratch hscratch
  obtain rfl : queue = [] := hempty
  refine tick_of_closed ?_ (Store.resetScratch_of_forall hscratch') rfl hclosed hqueue
  cases hbound : p.passLimit with
  | none => exact hpatience
  | some limit =>
      rw [hbound] at hlimit
      exact hlimit

/-- The value comes in before the passes start, so that zero is not used. -/
theorem tick_quiescent_fallback :
    ∃ q start, fallback.tick 3 = .ok (q, .ok ⟨0, 2, 1, 0⟩) ∧
      fallback.store.resetScratch.depositAll fallback.id fallback.pending = .ok (start, 1) ∧
      (Facts.mk fallback.id start).get fallbackGiven = .ok (.ofList [7]) ∧
      (Facts.mk fallback.id start).get fallbackUsed = .ok .empty ∧
      passes fallback.id fallback.sameTickRules 2 start = .ok q.store ∧
      q.facts.get fallbackGiven = .ok (.ofList [7]) ∧
      q.facts.get fallbackUsed = .ok (.ofList [7]) ∧
      (∀ r ∈ fallback.sameTickRules, r.Closed fallback.id q.store) ∧ q.pending = [] ∧
      q.tick 1 = .ok ({ q with ticks := q.ticks + 1 }, .ok ⟨q.ticks, 1, 0, 0⟩) := by
  obtain ⟨q, start, h, hstart, hgiven, hused, hgiven', hused'⟩ :
      ∃ q start, fallback.tick 3 = .ok (q, .ok ⟨0, 2, 1, 0⟩) ∧
        fallback.store.resetScratch.depositAll fallback.id fallback.pending = .ok (start, 1) ∧
        (Facts.mk fallback.id start).get fallbackGiven = .ok (.ofList [7]) ∧
        (Facts.mk fallback.id start).get fallbackUsed = .ok .empty ∧
        q.facts.get fallbackGiven = .ok (.ofList [7]) ∧
        q.facts.get fallbackUsed = .ok (.ofList [7]) := ⟨_, _, rfl, rfl, rfl, rfl, rfl, rfl⟩
  obtain ⟨⟨_, hplace, hpasses⟩, hclosed, ⟨results, hresults, hqueue⟩, _, _, _, hquiet⟩ :=
    tick_quiescent h
  cases hstart.symm.trans hplace
  -- there is no rule for the next tick
  cases hresults
  exact ⟨q, start, h, hstart, hgiven, hused, hpasses, hgiven', hused', hclosed, hqueue,
    hquiet 1 Nat.one_pos (by decide) hqueue⟩

end Program

end Ratchet
