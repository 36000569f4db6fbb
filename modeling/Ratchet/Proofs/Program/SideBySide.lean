import Ratchet.Proofs.Program.Access
import Ratchet.Proofs.Program.Parts
import Ratchet.Proofs.Program.Queue

/-!
# Programs side by side

Two programs can be put into one: the relations of both are declared, in any order, and so are the
rules of both, and what waits for either waits in one queue.  The parts share a store, the loop over
the passes and the queue.  They do not disturb each other, whatever their rules are: each phase of a
tick of the whole is made up of what the parts do in theirs (`SideBySide.tick_combines`).

A program need not have been put together from two others.  If its relations fall into two groups
that no rule mixes, then it is made up of two parts as well (`sideBySide_alone`).

## Main result

* `Program.tick_sideBySide`: a tick of the whole and the ticks of the parts.
-/

namespace Ratchet

/-! ## Ticks -/

namespace Program

/-- A program that is made up of two parts with nothing in common. -/
structure SideBySide (left right : Nat → Option Nat) (p a b : Program) : Prop where
  unbounded : p.passLimit = none
  left_unbounded : a.passLimit = none
  right_unbounded : b.passLimit = none
  store : p.store.Split left right a.store b.store
  rules : SplitRules left right p.id a.id b.id p.rules a.rules b.rules
  pending : SplitQueue left right p.pending a.pending b.pending

/-- What two ticks report together. -/
structure ReportsTogether (whole a b : TickReport) : Prop where
  applied : whole.applied = a.applied + b.applied
  queued : whole.queued = a.queued + b.queued
  passes : whole.passes = max a.passes b.passes

variable {left right : Nat → Option Nat} {p a b : Program} {patience : Nat}

theorem tick_of_unbounded (hlimit : p.passLimit = none) : p.tick patience = (do
    let (start, applied) ← p.store.resetScratch.depositAll p.id p.pending
    let (store, passes) ← settleWithin p.id p.sameTickRules patience 0 start
    let queue ← allConsequences ⟨p.id, store⟩ p.nextTickRules
    return ({ p with store := store, pending := queue, ticks := p.ticks + 1 },
      .ok ⟨p.ticks, passes, applied, queue.length⟩)) := by
  unfold tick settleWithin
  rw [hlimit]
  cases p.store.resetScratch.depositAll p.id p.pending with
  | error fault => rfl
  | ok r =>
      simp only [bind, Except.bind, Option.getD_none]
      cases settle p.id p.sameTickRules patience 0 r.1 with
      | error fault => rfl
      | ok settled => cases settled <;> rfl

namespace SideBySide

theorem rules_filter (h : p.SideBySide left right a b) (timing : Timing) :
    SplitRules left right p.id a.id b.id (p.rules.filter fun r => r.timing = timing)
      (a.rules.filter fun r => r.timing = timing) (b.rules.filter fun r => r.timing = timing) :=
  h.rules.filter _ (fun _ _ hr => by rw [hr.timing_eq]) fun _ _ hr => by rw [hr.timing_eq]

/-- A tick of the whole is made up of the ticks of its parts. -/
theorem tick_combines (hsides : Sides left right) (h : p.SideBySide left right a b) :
    Combines (fun x y z => x.1.SideBySide left right y.1 z.1 ∧
        ∃ report ra rb, x.2 = .ok report ∧ y.2 = .ok ra ∧ z.2 = .ok rb ∧
          ReportsTogether report ra rb)
      (p.tick patience) (a.tick patience) (b.tick patience) := by
  rw [tick_of_unbounded h.unbounded, tick_of_unbounded h.left_unbounded,
    tick_of_unbounded h.right_unbounded]
  have hreset : p.store.resetScratch.Split left right a.store.resetScratch b.store.resetScratch :=
    ⟨h.store.left.resetScratch, h.store.right.resetScratch⟩
  refine (Store.depositAll_combines hsides hreset h.pending).bind ?_
  rintro ⟨start, _⟩ ⟨startA, appliedA⟩ ⟨startB, appliedB⟩ - - ⟨hstart, rfl⟩
  refine (settleWithin_combines hsides (h.rules_filter .sameTick) hstart).bind ?_
  rintro ⟨store, _⟩ ⟨storeA, passesA⟩ ⟨storeB, passesB⟩ - - ⟨hstore, rfl⟩
  refine (allConsequences_combines hsides (h.rules_filter .nextTick) hstore).bind ?_
  rintro queue queueA queueB - - hqueue
  exact .ok ⟨⟨h.unbounded, h.left_unbounded, h.right_unbounded, hstore, h.rules, hqueue⟩,
    _, _, _, rfl, rfl, rfl, rfl, hqueue.length hsides, rfl⟩

end SideBySide

/-! ### Groups of relations

Each part is the program itself without the rules and the queue of the other group.  The relations
of the other group can stay, as nobody looks at them. -/

/-- The slots of a group under the numbers that they have. -/
def owned (group : Nat → Bool) (i : Nat) : Option Nat := if group i then some i else none

theorem owned_eq_some {group : Nat → Bool} {i j : Nat} :
    owned group i = some j ↔ group i = true ∧ i = j := by
  unfold owned
  split <;> simp_all

theorem sides_owned (group : Nat → Bool) : Sides (owned group) (owned fun i => !group i) where
  left_injective i i' j hi hi' := by
    rw [(owned_eq_some.1 hi).2, (owned_eq_some.1 hi').2]
  right_injective i i' j hi hi' := by
    rw [(owned_eq_some.1 hi).2, (owned_eq_some.1 hi').2]
  exactly_one i := by
    cases hi : group i <;> simp [owned, hi]

/-- The program with no rules and nothing waiting but for the relations of a group. -/
def alone (p : Program) (group : Nat → Bool) : Program :=
  { p with
    rules := p.rules.filter fun r => group r.target
    pending := p.pending.filter fun d => group d.slot }

theorem pending_alone (group : Nat → Bool) :
    (p.alone group).pending = p.pending.filterMap (Deposit.part (owned group)) := by
  change p.pending.filter (fun d => group d.slot) = _
  rw [← List.filterMap_eq_filter]
  congr 1
  funext d
  unfold Deposit.part owned Option.guard
  split <;> simp_all

theorem partOf_owned (group : Nat → Bool) (S : Store) : S.PartOf (owned group) S := by
  intro i j hi
  rw [(owned_eq_some.1 hi).2]

theorem rule_partOf_owned {group : Nat → Bool} {program : Nat} {r : Rule}
    (htarget : group r.target = true)
    (hlocal : ∀ S T : Store, (∀ i, group i = true → T[i]? = S[i]?) →
      r.evaluate ⟨program, T⟩ = r.evaluate ⟨program, S⟩) :
    r.PartOf (owned group) program program r where
  timing_eq := rfl
  target_eq := owned_eq_some.2 ⟨htarget, rfl⟩
  evaluate_eq S T hT := by
    rw [hlocal S T fun i hi => hT i i (owned_eq_some.2 ⟨hi, rfl⟩)]

/-- A program whose relations fall into two groups, so that what a rule asks for depends on the
group of its target only, is made up of what it is with the rules and the queue of one group. -/
theorem sideBySide_alone {group : Nat → Bool} (hlimit : p.passLimit = none)
    (hlocal : ∀ r ∈ p.rules, ∀ S T : Store, (∀ i, group i = group r.target → T[i]? = S[i]?) →
      r.evaluate ⟨p.id, T⟩ = r.evaluate ⟨p.id, S⟩) :
    p.SideBySide (owned group) (owned fun i => !group i) (p.alone group)
      (p.alone fun i => !group i) := by
  refine ⟨hlimit, hlimit, hlimit, ⟨partOf_owned _ _, partOf_owned _ _⟩, ?_,
    ⟨pending_alone _, pending_alone _⟩⟩
  change SplitRules _ _ p.id p.id p.id p.rules (p.rules.filter fun r => group r.target)
    (p.rules.filter fun r => !group r.target)
  generalize p.rules = rs at hlocal
  induction rs with
  | nil => exact .nil
  | cons r rs ih =>
      obtain ⟨hr, hrs⟩ := List.forall_mem_cons.1 hlocal
      cases htarget : group r.target with
      | true =>
          rw [htarget] at hr
          simp only [List.filter_cons, htarget, Bool.not_true, Bool.false_eq_true, if_true,
            if_false]
          exact .left (rule_partOf_owned htarget hr) (ih hrs)
      | false =>
          have hother : (!group r.target) = true := by rw [htarget, Bool.not_false]
          simp only [List.filter_cons, htarget, Bool.not_false, Bool.false_eq_true, if_true,
            if_false]
          refine .right (rule_partOf_owned hother fun S T hST => hr S T fun i hi => ?_) (ih hrs)
          exact hST i (by rw [hi, htarget, Bool.not_false])

/-- A relation that is not scratch, for which nothing waits and which is not the target of a rule of
the same tick, is not changed by a tick. -/
theorem getElem?_of_tick {q : Program} {result : Except ProgramError TickReport} {i : Nat}
    (h : p.tick patience = .ok (q, result))
    (hlasting : ∀ s, p.store[i]? = some s → s.scratch = false)
    (hpending : ∀ d ∈ p.pending, d.slot ≠ i) (hrules : ∀ r ∈ p.sameTickRules, r.target ≠ i) :
    q.store[i]? = p.store[i]? := by
  obtain ⟨start, applied, n, hstart, hpasses, _⟩ := passes_of_tick h
  have hreset : p.store.resetScratch[i]? = p.store[i]? := by
    rw [Store.getElem?_resetScratch]
    cases hs : p.store[i]? with
    | none => rfl
    | some s => exact congrArg some (Slot.restart_of_lasting s.below_refl.sameShape (hlasting s hs))
  rw [getElem?_of_passes hrules hpasses, Store.getElem?_of_depositAll hpending hstart, hreset]

/-- The relations and rules of `chain` and of `ledger` in one program, and what waits for both. -/
def shared : Program :=
  let script : Setup Unit := do
    let first ← Setup.declare (.set .int) "first"
    let values ← Setup.declare .dynamicMap "values"
    let second ← Setup.declare (.set .int) "second"
    let seen ← Setup.declare (.set .int) "seen"
    let third ← Setup.declare (.set .int) "third"
    Setup.copy second third .sameTick
    Setup.join .unit seen .sameTick (zeroUnlessFilled values)
    Setup.copy first second .sameTick
    Setup.copy seen seen .nextTick
  { (script.runOn (create 5 "m" none)).2 with
    pending := [⟨1, (ledgerEntry "x" (.ofMaxInt ⟨3⟩)).write⟩, ⟨0, .add (.set .int) 7⟩,
      ⟨1, ledgerMap.write⟩, ⟨1, (ledgerEntry "y" (.ofFlag ⟨true⟩)).write⟩,
      ⟨3, .add (.set .int) 1⟩] }

/-- Every other slot, counted on its own, from the first one. -/
def evenSlots (i : Nat) : Option Nat := if i % 2 = 0 then some (i / 2) else none

/-- Every other slot, counted on its own, from the second one. -/
def oddSlots (i : Nat) : Option Nat := if i % 2 = 0 then none else some (i / 2)

theorem sides_evenSlots : Sides evenSlots oddSlots where
  left_injective i i' j hi hi' := by
    simp only [evenSlots, Option.ite_none_right_eq_some, Option.some.injEq] at hi hi'
    omega
  right_injective i i' j hi hi' := by
    simp only [oddSlots, Option.ite_none_left_eq_some, Option.some.injEq] at hi hi'
    omega
  exactly_one i := by
    simp [evenSlots, oddSlots]

theorem partOf_copy {own : Nat → Option Nat} {P Q : Nat} {a r : Rule} {h k : Handle (.set .int)}
    (hh : h.id.program = P) (hk : k.id.program = Q) (hown : own h.id.slot = some k.id.slot)
    (hr : r.evaluate = Rule.selectRows (.of h) (fun _ row => .ok (some (.add (.set .int) row))))
    (ha : a.evaluate = Rule.selectRows (.of k) (fun _ row => .ok (some (.add (.set .int) row))))
    (htiming : a.timing = r.timing) (htarget : own r.target = some a.target) :
    a.PartOf own P Q r :=
  .of_rows (fun row => .ok (some (.add (.set .int) row))) hr ha htiming htarget
    fun _ _ hA => hA.rows_eq hh hk hown

theorem partOf_zero {own : Nat → Option Nat} {P Q : Nat} {a r : Rule} {h k : Handle .dynamicMap}
    (hh : h.id.program = P) (hk : k.id.program = Q) (hown : own h.id.slot = some k.id.slot)
    (hr : r.evaluate = Rule.selectRows .unit (writing (.add (.set .int)) (zeroUnlessFilled h)))
    (ha : a.evaluate = Rule.selectRows .unit (writing (.add (.set .int)) (zeroUnlessFilled k)))
    (htiming : a.timing = r.timing) (htarget : own r.target = some a.target) :
    a.PartOf own P Q r where
  timing_eq := htiming
  target_eq := htarget
  evaluate_eq S A hA := by
    rw [ha, hr]
    refine Rule.selectRows_eq rfl fun _ => ?_
    unfold writing zeroUnlessFilled
    rw [toOption_bind, toOption_bind, toOption_bind, toOption_bind, hA.get_eq hh hk hown]

theorem sideBySide_shared :
    shared.SideBySide evenSlots oddSlots chain { ledger with pending := fitting } where
  unbounded := rfl
  left_unbounded := rfl
  right_unbounded := rfl
  store := by
    constructor
    · intro i j hi
      simp only [evenSlots, Option.ite_none_right_eq_some, Option.some.injEq] at hi
      obtain rfl : i = 2 * j := by omega
      rcases j with _ | _ | _ | j
      · rfl
      · rfl
      · rfl
      · rfl
    · intro i j hi
      simp only [oddSlots, Option.ite_none_left_eq_some, Option.some.injEq] at hi
      obtain rfl : i = 2 * j + 1 := by omega
      rcases j with _ | _ | j
      · rfl
      · rfl
      · rfl
  rules := by
    refine .left (partOf_copy (h := ⟨⟨5, 2⟩⟩) (k := ⟨⟨0, 1⟩⟩) rfl rfl rfl rfl rfl rfl rfl) ?_
    refine .right (partOf_zero (h := ⟨⟨5, 1⟩⟩) (k := ⟨⟨0, 0⟩⟩) rfl rfl rfl rfl rfl rfl rfl) ?_
    refine .left (partOf_copy (h := ⟨⟨5, 0⟩⟩) (k := ⟨⟨0, 0⟩⟩) rfl rfl rfl rfl rfl rfl rfl) ?_
    exact .right (partOf_copy (h := ⟨⟨5, 3⟩⟩) (k := ⟨⟨0, 1⟩⟩) rfl rfl rfl rfl rfl rfl rfl) .nil
  pending := ⟨rfl, rfl⟩

/-- Independent rule sets in one program do not disturb each other.  Let a program without a bound
be made up of two parts, so that every slot belongs to one of them, every rule reads and writes
slots of its own part only, and slots, rules and queue are interleaved in any way.  A tick of the
whole completes just if the ticks of both parts do.  Each relation then has the value that it has in
its part, what the whole queues is what the parts queue, the numbers of deposits that are applied
and queued are sums, and the number of passes is the greater one of the two.

In particular, a relation that is not scratch, for which nothing waits and that no rule writes, is
not changed. -/
theorem tick_sideBySide (hsides : Sides left right) (h : p.SideBySide left right a b)
    (patience : Nat) :
    (p.completes patience ↔ a.completes patience ∧ b.completes patience) ∧
      (∀ q report, p.tick patience = .ok (q, .ok report) → ∃ qa ra qb rb,
        a.tick patience = .ok (qa, .ok ra) ∧ b.tick patience = .ok (qb, .ok rb) ∧
          q.SideBySide left right qa qb ∧ ReportsTogether report ra rb) ∧
      ∀ q result i, p.tick patience = .ok (q, result) →
        (∀ s, p.store[i]? = some s → s.scratch = false) → (∀ d ∈ p.pending, d.slot ≠ i) →
        (∀ r ∈ p.rules, r.target ≠ i) → q.store[i]? = p.store[i]? := by
  have hticks : Combines _ (p.tick patience) (a.tick patience) (b.tick patience) :=
    h.tick_combines hsides
  have hparts : ∀ q report, p.tick patience = .ok (q, .ok report) → ∃ qa ra qb rb,
      a.tick patience = .ok (qa, .ok ra) ∧ b.tick patience = .ok (qb, .ok rb) ∧
        q.SideBySide left right qa qb ∧ ReportsTogether report ra rb := by
    intro q report hq
    obtain ⟨⟨qa, _⟩, ⟨qb, _⟩, ha, hb, hparts, _, ra, rb, heq, rfl, rfl, hreports⟩ :=
      hticks.parts_of_ok hq
    cases heq
    exact ⟨qa, ra, qb, rb, ha, hb, hparts, hreports⟩
  refine ⟨?_, hparts, ?_⟩
  · simp only [completes_iff]
    constructor
    · rintro ⟨q, report, hq⟩
      obtain ⟨qa, ra, qb, rb, ha, hb, _⟩ := hparts q report hq
      exact ⟨⟨qa, ra, ha⟩, ⟨qb, rb, hb⟩⟩
    · rintro ⟨⟨qa, ra, ha⟩, ⟨qb, rb, hb⟩⟩
      obtain ⟨⟨q, _⟩, hq, _, report, _, _, rfl, _⟩ := hticks.exists_whole _ _ ha hb
      exact ⟨q, report, hq⟩
  · intro q result i hq hlasting hpending hrules
    exact getElem?_of_tick hq hlasting hpending fun r hr => hrules r (List.mem_filter.1 hr).1

theorem tick_sideBySide_shared :
    ¬ shared.completes 2 ∧ ∃ q report qa ra qb rb, shared.tick 3 = .ok (q, .ok report) ∧
      chain.tick 3 = .ok (qa, .ok ra) ∧
      ({ ledger with pending := fitting } : Program).tick 3 = .ok (qb, .ok rb) ∧
      q.SideBySide evenSlots oddSlots qa qb ∧ ReportsTogether report ra rb ∧
      (ra.applied, ra.queued, ra.passes) = (1, 0, 3) ∧
      (rb.applied, rb.queued, rb.passes) = (4, 1, 1) := by
  have hsides := sides_evenSlots
  obtain ⟨hfew, _⟩ := tick_sideBySide hsides sideBySide_shared 2
  obtain ⟨henough, hparts, _⟩ := tick_sideBySide hsides sideBySide_shared 3
  obtain ⟨qa, ra, ha, hreport⟩ : ∃ qa ra, chain.tick 3 = .ok (qa, .ok ra) ∧
      (ra.applied, ra.queued, ra.passes) = (1, 0, 3) := ⟨_, _, rfl, by decide⟩
  obtain ⟨qb, rb, hb, hreport'⟩ : ∃ qb rb,
      ({ ledger with pending := fitting } : Program).tick 3 = .ok (qb, .ok rb) ∧
      (rb.applied, rb.queued, rb.passes) = (4, 1, 1) := ⟨_, _, rfl, by decide⟩
  obtain ⟨q, report, hq⟩ := completes_iff.1 <|
    henough.2 ⟨completes_iff.2 ⟨qa, ra, ha⟩, completes_iff.2 ⟨qb, rb, hb⟩⟩
  obtain ⟨_, _, _, _, ha', hb', hsplit, hreports⟩ := hparts q report hq
  cases ha.symm.trans ha'
  cases hb.symm.trans hb'
  refine ⟨fun h => ?_, q, report, qa, ra, qb, rb, hq, ha, hb, hsplit, hreports, hreport, hreport'⟩
  exact absurd (hfew.1 h).1 (by decide)

end Program

end Ratchet
