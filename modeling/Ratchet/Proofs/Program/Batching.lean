import Ratchet.Proofs.Program.Growth
import Ratchet.Proofs.Program.RuleOrder
import Ratchet.Proofs.Program.Scratch

/-!
# Input in batches

A program whose rules are monotone and all belong to the same tick, and none of whose relations is
scratch, does not show in which portions its input came.  Facts and whole relations can be deposited
in any order, at once or for the next tick, with ticks in between wherever one likes.

What the relations are after the last tick can be said without mentioning the stages.  A store
*covers* a program if it holds what is in the relations and what waits for them, and it covers an
action if it holds what the action deposits.  Consider a store that is closed under the rules.  It
covers a program and an action if and only if it covers the program after the action
(`CoveredBy.perform`, `CoveredBy.of_perform`): a tick puts in what waits, and the passes do not
leave what is closed.  So it covers all that a run ends with if and only if it covers what the run
began with and all that was deposited on the way.  The relations after the last tick are closed
themselves, so they are the least closed store of this kind (`least_of_run`).  That is a description
of the input alone.

It remains to be shown that a single tick gets as far, since the lattices may have infinite chains.
The passes of the staged run work with less at each stage, and a pass from more gives more.  So when
the single tick has made as many passes as all ticks of the staged run together, it has overtaken
them (`CoveredBy.of_passes`).

## Main result

* `Program.run_batched`: a staged run against one tick for all of its input.
-/

namespace Ratchet

/-- How many passes a tick reports; none if nothing is reported. -/
def Outcome.passes (outcome : Outcome) : Nat := (outcome.report?.map TickReport.passes).getD 0

/-- What the action deposits is for the program, and in the store. -/
def Action.CoveredBy (program : Nat) (action : Action) (Z : Store) : Prop :=
  ∀ target w, action.deposit? = some (target, w) →
    target.program = program ∧ (Deposit.mk target.slot w).Held Z

theorem Action.CoveredBy.mono {program : Nat} {action : Action} {U Z : Store}
    (h : action.CoveredBy program U) (hUZ : U.Below Z) : action.CoveredBy program Z :=
  fun target w hdeposit? =>
    have ⟨hprogram, hheld⟩ := h target w hdeposit?
    ⟨hprogram, hheld.mono hUZ⟩

/-- What covers actions covers all that deposit nothing else. -/
theorem Action.coveredBy_of_subset {program : Nat} {Z : Store} {actions others : List Action}
    (hsub : ∀ x ∈ others.filterMap Action.deposit?, x ∈ actions.filterMap Action.deposit?)
    (h : ∀ a ∈ actions, a.CoveredBy program Z) : ∀ a ∈ others, a.CoveredBy program Z := by
  intro a ha target w hdeposit?
  have hmem := hsub (target, w) (List.mem_filterMap.2 ⟨a, ha, hdeposit?⟩)
  obtain ⟨a', ha', hdeposit?'⟩ := List.mem_filterMap.1 hmem
  exact h a' ha' target w hdeposit?'

namespace Program

/-- The program that a run leaves. -/
def after (p : Program) : List (Program × Outcome) → Program
  | [] => p
  | step :: trace => step.1.after trace

/-- How many passes the ticks of a run report, all together. -/
def passesMade : List (Program × Outcome) → Nat
  | [] => 0
  | step :: trace => step.2.passes + passesMade trace

/-- What the program has in its relations, and what waits for them, is in the store. -/
def CoveredBy (p : Program) (Z : Store) : Prop := p.store.Below Z ∧ ∀ d ∈ p.pending, d.Held Z

/-- A program with the given rules, none of them for the next tick, that is not bounded and resets
nothing. -/
structure Cumulative (program : Nat) (rules : List Rule) (frame : Store) (p : Program) : Prop where
  id_eq : p.id = program
  rules_eq : p.rules = rules
  timing : ∀ r ∈ rules, r.timing = .sameTick
  unbounded : p.passLimit = none
  sameShape : frame.SameShape p.store
  lasting : ∀ s ∈ frame, s.scratch = false

variable {program patience : Nat} {rules : List Rule} {frame Z U V : Store} {p q : Program}
  {action : Action} {actions : List Action} {outcome : Outcome} {trace : List (Program × Outcome)}

/-! ## One action -/

namespace Cumulative

theorem sameTickRules_eq (hp : p.Cumulative program rules frame) : p.sameTickRules = rules := by
  unfold sameTickRules
  rw [hp.rules_eq]
  exact List.filter_eq_self.2 fun r hr => decide_eq_true (hp.timing r hr)

theorem nextTickRules_eq (hp : p.Cumulative program rules frame) : p.nextTickRules = [] := by
  unfold nextTickRules
  rw [hp.rules_eq]
  refine List.filter_eq_nil_iff.2 fun r hr => ?_
  simp [hp.timing r hr]

theorem resetScratch_eq (hp : p.Cumulative program rules frame) :
    p.store.resetScratch = p.store :=
  Store.resetScratch_of_forall (hp.sameShape.forall_scratch hp.lasting)

theorem of_perform (hp : p.Cumulative program rules frame)
    (h : p.perform patience action = .ok (q, outcome)) : q.Cumulative program rules frame := by
  obtain ⟨heq, hshape⟩ := eq_of_perform h
  rw [heq]
  exact ⟨hp.id_eq, hp.rules_eq, hp.timing, hp.unbounded, hp.sameShape.trans hshape, hp.lasting⟩

theorem program_of_slot {target : RelationId} {s : Slot} (hp : p.Cumulative program rules frame)
    (h : (p.facts.slot target).mapError Fault.misuse = .ok s) : target.program = program := by
  rw [← hp.id_eq]
  unfold Facts.slot at h
  split at h
  · next hprogram => exact hprogram
  · cases h

/-- What a tick does to a program of this kind.  It always completes. -/
theorem tick {result : Except ProgramError TickReport} (hp : p.Cumulative program rules frame)
    (h : p.tick patience = .ok (q, result)) :
    ∃ report start applied n, result = .ok report ∧ report.passes = n + 1 ∧
      p.store.depositAll program p.pending = .ok (start, applied) ∧
      passes program rules n start = .ok q.store ∧ (∀ r ∈ rules, r.Closed program q.store) ∧
      q.pending = [] := by
  obtain ⟨report, rfl⟩ := exists_report_of_tick hp.unbounded h
  obtain ⟨start, applied, store, count, queue, hstart, hsettle, hqueue, rfl, rfl⟩ := tick_eq_ok.1 h
  rw [hp.resetScratch_eq, hp.id_eq] at hstart
  rw [hp.id_eq, hp.sameTickRules_eq] at hsettle
  rw [hp.nextTickRules_eq] at hqueue
  cases hqueue
  obtain ⟨n, T, hn, _, ⟨_, hclosed, heq⟩ | ⟨_, heq⟩⟩ := settle_eq_ok hsettle
  · cases heq
    exact ⟨_, start, applied, n, rfl, by simp, hstart, hn, hclosed, rfl⟩
  · cases heq

end Cumulative

namespace CoveredBy

/-- What covers a program after an action covers the program and the action. -/
theorem of_perform (hp : p.Cumulative program rules frame)
    (h : p.perform patience action = .ok (q, outcome)) (hq : q.CoveredBy Z) :
    p.CoveredBy Z ∧ action.CoveredBy program Z := by
  obtain ⟨hstore, hpending⟩ := hq
  rcases perform_cases h with ⟨target, w, haction, _, ⟨_, hnow⟩ | hnext⟩ | ⟨_, rfl, htick, _⟩
  · obtain ⟨_, hslot, hnow⟩ := bind_eq_ok.1 hnow
    obtain ⟨⟨S, _⟩, hdeposit, heq⟩ := bind_eq_ok.1 hnow
    cases heq
    obtain ⟨hbelow, hheld, _⟩ := Store.deposit_least hdeposit
    refine ⟨⟨hbelow.trans hstore, hpending⟩, ?_⟩
    rintro _ _ heq
    cases haction.symm.trans heq
    exact ⟨hp.program_of_slot hslot, hheld.mono hstore⟩
  · obtain ⟨_, hslot, heq⟩ := bind_eq_ok.1 hnext
    cases heq
    obtain ⟨hpending, hlast⟩ := List.forall_mem_append.1 hpending
    refine ⟨⟨hstore, hpending⟩, ?_⟩
    rintro _ _ heq
    cases haction.symm.trans heq
    exact ⟨hp.program_of_slot hslot, hlast _ List.mem_cons_self⟩
  · obtain ⟨_, start, _, _, _, _, hstart, hpasses, _⟩ := hp.tick htick
    obtain ⟨hbelow, hheld, _⟩ := Store.depositAll_least hstart
    have hstartZ : start.Below Z := (below_of_passes hpasses).trans hstore
    exact ⟨⟨hbelow.trans hstartZ, fun d hd => (hheld d hd).mono hstartZ⟩, nofun⟩

/-- What waits is put in by a tick, and the passes lead from there. -/
theorem start (hp : p.CoveredBy Z) {start : Store} {applied : Nat}
    (hstart : p.store.depositAll program p.pending = .ok (start, applied)) : start.Below Z :=
  (Store.depositAll_least hstart).2.2.1 Z hp.1 hp.2

theorem mono (hp : p.CoveredBy U) (hUZ : U.Below Z) : p.CoveredBy Z :=
  ⟨hp.1.trans hUZ, fun d hd => (hp.2 d hd).mono hUZ⟩

/-- What covers a program and a deposit covers the program after the deposit. -/
theorem deposit (h : p.perform patience action = .ok (q, outcome))
    (hdeposit : action.deposit? ≠ none) (hpZ : p.CoveredBy Z)
    (haction : action.CoveredBy program Z) : q.CoveredBy Z := by
  rcases perform_cases h with ⟨target, w, hdeposit?, _, ⟨_, hnow⟩ | hnext⟩ | ⟨_, rfl, _⟩
  · obtain ⟨_, _, hnow⟩ := bind_eq_ok.1 hnow
    obtain ⟨_, hdeposit, heq⟩ := bind_eq_ok.1 hnow
    cases heq
    exact ⟨(Store.deposit_least hdeposit).2.2.1 Z hpZ.1 (haction _ _ hdeposit?).2, hpZ.2⟩
  · obtain ⟨_, _, heq⟩ := bind_eq_ok.1 hnext
    cases heq
    refine ⟨hpZ.1, List.forall_mem_append.2 ⟨hpZ.2, ?_⟩⟩
    exact List.forall_mem_singleton.2 (haction _ _ hdeposit?).2
  · exact absurd rfl hdeposit

/-- A closed store that covers a program and an action covers the program after it. -/
theorem perform (hmono : ∀ r ∈ rules, r.Monotone program frame)
    (hp : p.Cumulative program rules frame) (hclosed : ∀ r ∈ rules, r.Closed program Z)
    (h : p.perform patience action = .ok (q, outcome)) (hpZ : p.CoveredBy Z)
    (haction : action.CoveredBy program Z) : q.CoveredBy Z := by
  by_cases hdeposit : action.deposit? = none
  · rcases perform_cases h with ⟨_, _, hdeposit?, _⟩ | ⟨_, rfl, htick, _⟩
    · cases hdeposit.symm.trans hdeposit?
    · obtain ⟨_, start, _, _, _, _, hstart, hpasses, _, hpending⟩ := hp.tick htick
      have hshape : frame.SameShape start :=
        hp.sameShape.trans (Store.depositAll_least hstart).1.sameShape
      refine ⟨passes_below_closed hmono hshape (hpZ.start hstart) hclosed hpasses, ?_⟩
      rw [hpending]
      exact nofun
  · exact CoveredBy.deposit h hdeposit hpZ haction

/-- As many passes as a tick makes before its last one, made from a store that covers the program,
lead to a store that covers the program after the tick. -/
theorem tick_of_passes {report : TickReport} {m : Nat}
    (hmono : ∀ r ∈ rules, r.Monotone program frame) (hp : p.Cumulative program rules frame)
    (htick : p.tick patience = .ok (q, .ok report)) (hpU : p.CoveredBy U)
    (hm : report.passes ≤ m + 1) (hV : passes program rules m U = .ok V) : q.CoveredBy V := by
  obtain ⟨_, start, _, n, heq, hn, hstart, hpasses, _, hpending⟩ := hp.tick htick
  cases heq
  have hshape : frame.SameShape start :=
    hp.sameShape.trans (Store.depositAll_least hstart).1.sameShape
  -- the passes beyond the ones that count only go further up
  rw [← Nat.add_sub_cancel' (show n ≤ m by omega)] at hV
  obtain ⟨W, hW, hV⟩ := passes_add.1 hV
  have hqW : q.store.Below W := passes_mono hmono hshape (hpU.start hstart) hpasses hW
  refine ⟨hqW.trans (below_of_passes hV), ?_⟩
  rw [hpending]
  exact nofun

end CoveredBy

/-! ## Runs -/

theorem Cumulative.of_run (hp : p.Cumulative program rules frame)
    (h : p.run patience actions = .ok trace) : (p.after trace).Cumulative program rules frame := by
  induction actions generalizing p trace with
  | nil =>
      cases h
      exact hp
  | cons action actions ih =>
      obtain ⟨q, outcome, rest, hperform, hrest, rfl⟩ := run_cons.1 h
      exact ih (p := q) (hp.of_perform hperform) hrest

namespace CoveredBy

/-- What covers the program after a run covers everything on the way. -/
theorem of_run (hp : p.Cumulative program rules frame) (h : p.run patience actions = .ok trace)
    (hlast : (p.after trace).CoveredBy Z) :
    p.CoveredBy Z ∧ (∀ a ∈ actions, a.CoveredBy program Z) ∧
      ∀ step ∈ trace, step.1.CoveredBy Z := by
  induction actions generalizing p trace with
  | nil =>
      cases h
      exact ⟨hlast, nofun, nofun⟩
  | cons action actions ih =>
      obtain ⟨q, outcome, rest, hperform, hrest, rfl⟩ := run_cons.1 h
      obtain ⟨hq, hactions, hsteps⟩ := ih (hp.of_perform hperform) hrest hlast
      obtain ⟨hpZ, haction⟩ := of_perform hp hperform hq
      exact ⟨hpZ, List.forall_mem_cons.2 ⟨haction, hactions⟩, List.forall_mem_cons.2 ⟨hq, hsteps⟩⟩

theorem run (hmono : ∀ r ∈ rules, r.Monotone program frame)
    (hp : p.Cumulative program rules frame) (hclosed : ∀ r ∈ rules, r.Closed program Z)
    (h : p.run patience actions = .ok trace) (hpZ : p.CoveredBy Z)
    (hactions : ∀ a ∈ actions, a.CoveredBy program Z) : (p.after trace).CoveredBy Z := by
  induction actions generalizing p trace with
  | nil =>
      cases h
      exact hpZ
  | cons action actions ih =>
      obtain ⟨q, outcome, rest, hperform, hrest, rfl⟩ := run_cons.1 h
      obtain ⟨haction, hactions⟩ := List.forall_mem_cons.1 hactions
      exact ih (p := q) (hp.of_perform hperform) hrest
        (CoveredBy.perform hmono hp hclosed hperform hpZ haction) hactions

/-- Deposits that are all in one store can be made one after the other. -/
theorem exists_run (hp : p.Cumulative program rules frame) (hpZ : p.CoveredBy Z)
    (hdeposits : ∀ a ∈ actions, a.deposit? ≠ none)
    (hactions : ∀ a ∈ actions, a.CoveredBy program Z) :
    ∃ trace, p.run patience actions = .ok trace := by
  induction actions generalizing p with
  | nil => exact ⟨[], rfl⟩
  | cons action actions ih =>
      obtain ⟨hdeposit?, hdeposits⟩ := List.forall_mem_cons.1 hdeposits
      obtain ⟨haction, hactions⟩ := List.forall_mem_cons.1 hactions
      obtain ⟨⟨target, w⟩, hwrite⟩ := Option.ne_none_iff_exists'.1 hdeposit?
      obtain ⟨hprogram, hheld⟩ := haction target w hwrite
      have hslot : ∃ s, p.facts.slot target = .ok s := by
        obtain ⟨z, hz, _⟩ := hheld
        obtain ⟨s, hs⟩ := Store.exists_of_length_eq hpZ.1.1.symm hz
        refine ⟨s, ?_⟩
        unfold Facts.slot facts
        rw [if_pos (hprogram.trans hp.id_eq.symm), hs]
      obtain ⟨s, hslot⟩ := hslot
      obtain ⟨S, grew, hdeposit⟩ := Store.exists_deposit p.id hpZ.1 hheld
      obtain ⟨q, outcome, hperform⟩ : ∃ q outcome, p.perform patience action = .ok (q, outcome) :=
        exists_perform_of_deposit? hwrite hslot hdeposit
      obtain ⟨rest, hrest⟩ := ih (hp.of_perform hperform)
        (CoveredBy.deposit hperform hdeposit? hpZ haction) hdeposits hactions
      exact ⟨_, run_cons.2 ⟨q, outcome, rest, hperform, hrest, rfl⟩⟩

/-- From a store that covers a program and all actions of a run, as many passes as all ticks of the
run report lead to a store that covers the program after the run. -/
theorem of_passes (hmono : ∀ r ∈ rules, r.Monotone program frame)
    (hp : p.Cumulative program rules frame) (h : p.run patience actions = .ok trace)
    (hpU : p.CoveredBy U) (hactions : ∀ a ∈ actions, a.CoveredBy program U)
    (hV : passes program rules (passesMade trace) U = .ok V) :
    (p.after trace).CoveredBy V := by
  induction actions generalizing p trace U with
  | nil =>
      cases h
      cases hV
      exact hpU
  | cons action actions ih =>
      obtain ⟨q, outcome, rest, hperform, hrest, rfl⟩ := run_cons.1 h
      obtain ⟨haction, hactions⟩ := List.forall_mem_cons.1 hactions
      obtain ⟨W, hW, hV⟩ := passes_add.1 hV
      have hUW : U.Below W := below_of_passes hW
      have hqW : q.CoveredBy W := by
        rcases perform_cases hperform with ⟨_, _, hdeposit?, _⟩ | ⟨result, _, htick, rfl⟩
        · exact (CoveredBy.deposit hperform (by simp [hdeposit?]) hpU haction).mono hUW
        · obtain ⟨report, _, _, _, rfl, _⟩ := hp.tick htick
          exact tick_of_passes hmono hp htick hpU (Nat.le_succ _) hW
      exact ih (p := q) (hp.of_perform hperform) hrest hqW (fun a ha => (hactions a ha).mono hUW) hV

end CoveredBy

/-- The relations after the last tick of a run are the least closed store that covers the program
and all actions. -/
theorem least_of_run {result : Except ProgramError TickReport}
    (hmono : ∀ r ∈ rules, r.Monotone program frame) (hp : p.Cumulative program rules frame)
    (h : p.run patience actions = .ok trace) {patience' : Nat}
    (htick : (p.after trace).tick patience' = .ok (q, result)) :
    (∀ r ∈ rules, r.Closed program q.store) ∧ (p.after trace).CoveredBy q.store ∧
      ∀ Z, (∀ r ∈ rules, r.Closed program Z) → p.CoveredBy Z →
        (∀ a ∈ actions, a.CoveredBy program Z) → q.store.Below Z := by
  have hlast := hp.of_run h
  have hperform : (p.after trace).perform patience' .tick = .ok (q, .ticked result) :=
    bind_eq_ok.2 ⟨_, htick, rfl⟩
  obtain ⟨_, _, _, _, _, _, _, _, hclosed, hpending⟩ := hlast.tick htick
  have hq : q.CoveredBy q.store := ⟨q.store.below_refl, by rw [hpending]; exact nofun⟩
  refine ⟨hclosed, (CoveredBy.of_perform hlast hperform hq).1, ?_⟩
  intro Z hZ hpZ hactions
  have hlastZ := CoveredBy.run hmono hp hZ h hpZ hactions
  exact (CoveredBy.perform hmono hlast hZ hperform hlastZ nofun).1

/-- After a run of deposits alone, a tick that is given as many passes as another run made, and does
not break off, leaves what that run left. -/
theorem exists_tick_of_overtaken {once : List Action} {made : List (Program × Outcome)}
    {report : TickReport} {final : Program} {patience' : Nat}
    (hmono : ∀ r ∈ rules, r.Monotone program frame) (hp : p.Cumulative program rules frame)
    (h : p.run patience actions = .ok trace)
    (htick : (p.after trace).tick patience = .ok (final, .ok report))
    (hsub : ∀ x ∈ actions.filterMap Action.deposit?, x ∈ once.filterMap Action.deposit?)
    (hmade : p.run patience once = .ok made) (hfinal : (p.after made).CoveredBy final.store)
    (hpatience : passesMade trace + report.passes ≤ patience')
    (hpatient : ∀ r ∈ rules, r.Patient)
    (hfault : ∀ fault, (p.after made).tick patience' = .error fault → fault = .exhausted) :
    ∃ q report', (p.after made).tick patience' = .ok (q, .ok report') := by
  have hlast := hp.of_run h
  have hready := hp.of_run hmade
  generalize hm : p.after made = m at *
  obtain ⟨hclosed, _⟩ := least_of_run hmono hp h htick
  obtain ⟨_, _, _, n, heq, hn, _⟩ := hlast.tick htick
  cases heq
  -- the tick starts from a store that covers the other run
  obtain ⟨start, applied, hstart⟩ := Store.exists_depositAll m.id hfinal.1 hfinal.2
  have hstartFinal : start.Below final.store := hfinal.start hstart
  obtain ⟨hbelow, hheld, _⟩ := Store.depositAll_least hstart
  have hcovers : (p.after made).CoveredBy start := hm ▸ ⟨hbelow, hheld⟩
  obtain ⟨hpstart, honce, _⟩ := CoveredBy.of_run hp hmade hcovers
  have hactions := Action.coveredBy_of_subset hsub honce
  have hovertaken : ∀ V,
      passes program rules (passesMade trace + n) start = .ok V →
        final.store.Below V := by
    intro V hV
    obtain ⟨W, hW, hV⟩ := passes_add.1 hV
    have hlastW := CoveredBy.of_passes hmono hp h hpstart hactions hW
    exact (CoveredBy.tick_of_passes hmono hlast htick hlastW (by omega) hV).1
  have hstart' : m.store.resetScratch.depositAll m.id m.pending = .ok (start, applied) := by
    rw [hready.resetScratch_eq, hstart]
  obtain ⟨result, hsettle⟩ := exists_settle_of_tick hready.unbounded
    (fun r hr => hpatient r (hready.rules_eq ▸ hr)) hstart' hfault
  have hshape : frame.SameShape start := hready.sameShape.trans hbelow.sameShape
  have hsettle' : settle program rules patience' 0 start = .ok result := by
    rw [← hready.id_eq, ← hready.sameTickRules_eq]
    exact hsettle
  obtain ⟨count, rfl, _⟩ := settle_of_overtaken hmono hshape hstartFinal hclosed hovertaken
    (by omega) hsettle'
  refine ⟨_, _, tick_eq_ok.2 ⟨start, applied, final.store, count, [], hstart', ?_, ?_, rfl, rfl⟩⟩
  · rw [hready.unbounded]
    exact hsettle
  · rw [hready.nextTickRules_eq]
    rfl

/-- Input for `chain` in three batches, with numbers for all three sets. -/
def chainBatches : List Action :=
  [.addNext (t := .set .int) ⟨⟨0, 0⟩⟩ 8, .tick,
    .merge (t := .set .int) ⟨⟨0, 1⟩⟩ (.ofList [9, 10]), .addNext (t := .set .int) ⟨⟨0, 0⟩⟩ 9, .tick,
    .add (t := .set .int) ⟨⟨0, 2⟩⟩ 1]

/-- The same input without a tick, in another order, and with one number twice. -/
def chainOnce : List Action :=
  [.add (t := .set .int) ⟨⟨0, 2⟩⟩ 1, .add (t := .set .int) ⟨⟨0, 0⟩⟩ 9,
    .mergeNext (t := .set .int) ⟨⟨0, 1⟩⟩ (.ofList [9, 10]), .add (t := .set .int) ⟨⟨0, 0⟩⟩ 8,
    .addNext (t := .set .int) ⟨⟨0, 2⟩⟩ 1]

/-- Batching of input does not matter to a program that forgets nothing: an unbounded one with
monotone rules, all of them for the same tick, and no scratch relation.  Let it be run with deposits
of facts and of whole relations, at once or for the next tick, with ticks in between, and let a tick
come last.  No relation is ever above what it is in the end.  If the same deposits are all made
before a single tick, in any order and any number, then they can be made, and that tick, where it
completes, leaves the same relations.  It completes with as many passes as all ticks of the staged
run took together, unless it breaks off with a fault of its own. -/
theorem run_batched {batches once : List Action} {report : TickReport} {final : Program}
    (hlimit : p.passLimit = none) (hlasting : ∀ s ∈ p.store, s.scratch = false)
    (htiming : ∀ r ∈ p.rules, r.timing = .sameTick)
    (hmono : ∀ r ∈ p.rules, r.Monotone p.id p.store)
    (hrun : p.run patience batches = .ok trace)
    (htick : (p.after trace).tick patience = .ok (final, .ok report))
    (honce : ∀ a ∈ once, a.deposit? ≠ none)
    (hsame : ∀ x, x ∈ once.filterMap Action.deposit? ↔ x ∈ batches.filterMap Action.deposit?) :
    (∀ step ∈ trace, step.1.store.Below final.store) ∧
      ∃ made, p.run patience once = .ok made ∧
        (∀ patience' q result, (p.after made).tick patience' = .ok (q, result) →
          (∃ report', result = .ok report') ∧ q.store = final.store) ∧
        ((∀ r ∈ p.rules, r.Patient) →
          ∀ patience', passesMade trace + report.passes ≤ patience' →
            (∀ fault, (p.after made).tick patience' = .error fault → fault = .exhausted) →
            ∃ q report', (p.after made).tick patience' = .ok (q, .ok report')) := by
  have hp : p.Cumulative p.id p.rules p.store :=
    ⟨rfl, rfl, htiming, hlimit, p.store.below_refl.sameShape, hlasting⟩
  obtain ⟨hclosed, hlast, hleast⟩ := least_of_run hmono hp hrun htick
  obtain ⟨hpfinal, hbatches, hsteps⟩ := CoveredBy.of_run hp hrun hlast
  have honceFinal : ∀ a ∈ once, a.CoveredBy p.id final.store :=
    Action.coveredBy_of_subset (fun x hx => (hsame x).1 hx) hbatches
  obtain ⟨made, hmade⟩ : ∃ made, p.run patience once = .ok made :=
    CoveredBy.exists_run hp hpfinal honce honceFinal
  have hmadeFinal : (p.after made).CoveredBy final.store :=
    CoveredBy.run hmono hp hclosed hmade hpfinal honceFinal
  refine ⟨fun step hstep => (hsteps step hstep).1, made, hmade, ?_, ?_⟩
  · intro patience' q result hq
    obtain ⟨report', _, _, _, rfl, _⟩ := (hp.of_run hmade).tick hq
    obtain ⟨hclosed', hready, hleast'⟩ := least_of_run hmono hp hmade hq
    obtain ⟨hpq, honceq, _⟩ := CoveredBy.of_run hp hmade hready
    have hbatchesq : ∀ a ∈ batches, a.CoveredBy p.id q.store :=
      Action.coveredBy_of_subset (fun x hx => (hsame x).2 hx) honceq
    have hqfinal : q.store.Below final.store := hleast' _ hclosed hpfinal honceFinal
    have hfinalq : final.store.Below q.store := hleast _ hclosed' hpq hbatchesq
    exact ⟨⟨report', rfl⟩, hqfinal.antisymm hfinalq⟩
  · intro hpatient patience' hpatience hfault
    exact exists_tick_of_overtaken hmono hp hrun htick (fun x hx => (hsame x).2 hx) hmade hmadeFinal
      hpatience hpatient hfault

theorem run_batched_chain :
    ∃ trace final report made q report', chain.run 3 chainBatches = .ok trace ∧
      (chain.after trace).tick 3 = .ok (final, .ok report) ∧
      (∀ step ∈ trace, step.1.store.Below final.store) ∧ chain.run 3 chainOnce = .ok made ∧
      (chain.after made).tick 6 = .ok (q, .ok report') ∧ q.store = final.store := by
  obtain ⟨trace, final, report, hrun, htick, hpasses⟩ : ∃ trace final report,
      chain.run 3 chainBatches = .ok trace ∧
      (chain.after trace).tick 3 = .ok (final, .ok report) ∧
      passesMade trace + report.passes = 6 :=
    ⟨_, _, _, rfl, rfl, by decide⟩
  have honce : ∀ a ∈ chainOnce, a.deposit? ≠ none := by simp [chainOnce, Action.deposit?]
  have hsame : ∀ x, x ∈ chainOnce.filterMap Action.deposit? ↔
      x ∈ chainBatches.filterMap Action.deposit? := by
    intro x
    simp only [chainOnce, chainBatches, Action.deposit?, List.filterMap_cons, List.filterMap_nil,
      List.mem_cons, List.not_mem_nil, or_false]
    tauto
  obtain ⟨hbelow, made, hmade, hequal, hcompletes⟩ := run_batched (p := chain) rfl (by decide)
    (by decide) monotone_of_mem_chain hrun htick honce hsame
  obtain ⟨_, _, hplain⟩ : ∃ q report', (do
    let made ← chain.run 3 chainOnce
    (chain.after made).tick 6) = .ok (q, .ok report') := ⟨_, _, rfl⟩
  obtain ⟨_, hmade', hplain⟩ := bind_eq_ok.1 hplain
  cases hmade.symm.trans hmade'
  obtain ⟨q, report', hq⟩ := hcompletes patient_of_mem_chain 6 (Nat.le_of_eq hpasses)
    fun fault hfault => nomatch hplain.symm.trans hfault
  exact ⟨trace, final, report, made, q, report', hrun, htick, hbelow, hmade, hq,
    (hequal 6 q _ hq).2⟩

end Program

end Ratchet
