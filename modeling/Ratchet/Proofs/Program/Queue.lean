import Ratchet.Proofs.Program.RuleOrder
import Ratchet.Proofs.Program.Setup

/-!
# What a tick makes of its queue

What waits for a tick is a list, and the tick takes its deposits one after the other, facts and
whole relations mixed.  Only the set of them matters: the relations that the passes start from are
the least ones above the old ones that hold every deposit, and neither order nor repetition occurs
in that.

The same is true of faults.  Values that do not fit together are met at different places in
different orders, and the faults name different values.  But deposits that can be made in one order
are held by what they lead to, and so can be made in every other order
(`Store.exists_depositAll_congr`); hence if one order breaks off, so do all.

What is left of the queue behind that point is a number: how many of the deposits grew their
relation.  A fact that comes after a relation with it in it grows nothing.  The number is zero in
every order or in none.

## Main result

* `Program.tick_requeued`: two ticks of a program whose queue is written down differently.
-/

namespace Ratchet

/-- Deposits with the same members break off in every order if they do in one.  The faults may
differ. -/
theorem Store.exists_fault_congr {program : Nat} {S : Store} {ds es : List Deposit} {fault : Fault}
    (hmem : ∀ d, d ∈ ds ↔ d ∈ es) (h : S.depositAll program ds = .error fault) :
    ∃ fault', S.depositAll program es = .error fault' := by
  cases hes : S.depositAll program es with
  | error fault' => exact ⟨fault', rfl⟩
  | ok r =>
      obtain ⟨_, hds⟩ := Store.exists_depositAll_congr (fun d => (hmem d).symm) hes
      cases h.symm.trans hds

namespace Program

/-- The same program, but for the order and the multiplicity of what waits for its next tick. -/
def Requeued (p q : Program) : Prop :=
  ∃ queue, (∀ d, d ∈ queue ↔ d ∈ p.pending) ∧ q = { p with pending := queue }

namespace Requeued

variable {p q p' : Program} {patience : Nat}

theorem symm (h : p.Requeued q) : q.Requeued p := by
  obtain ⟨queue, hqueue, rfl⟩ := h
  exact ⟨p.pending, fun d => (hqueue d).symm, rfl⟩

theorem addr_eq (h : p.Requeued q) : q.addr = p.addr := by
  obtain ⟨queue, _, rfl⟩ := h
  rfl

theorem store_eq (h : p.Requeued q) : q.store = p.store := by
  obtain ⟨queue, _, rfl⟩ := h
  rfl

/-- After a completed tick the two programs are the same. -/
theorem tick {report : TickReport} (h : p.Requeued q)
    (htick : p.tick patience = .ok (p', .ok report)) :
    ∃ report', q.tick patience = .ok (p', .ok report') := by
  obtain ⟨queue, hqueue, rfl⟩ := h
  obtain ⟨start, applied, store, count, next, hstart, hsettle, hnext, rfl, rfl⟩ :=
    Program.tick_eq_ok.1 htick
  obtain ⟨applied', hstart'⟩ := Store.exists_depositAll_congr (fun d => (hqueue d).symm) hstart
  exact ⟨_, Program.tick_eq_ok.2
    ⟨start, applied', store, count, next, hstart', hsettle, hnext, rfl, rfl⟩⟩

end Requeued

/-- Ticks that end alike: both break off, both fail with the same error, or both complete and tell
the same, but for how many of the waiting deposits had an effect of their own. -/
inductive TicksAlike :
    (a b : Except Fault (Program × Except ProgramError TickReport)) → Prop where
  /-- Both break off, or both are given up for lack of patience. -/
  | faulted {a b : Fault} (h : a = .exhausted ↔ b = .exhausted) : TicksAlike (.error a) (.error b)
  | failed (q : Program) (error : ProgramError) :
    TicksAlike (.ok (q, .error error)) (.ok (q, .error error))
  | completed (q : Program) {a b : TickReport} (hreport : b = { a with applied := b.applied })
    (happlied : b.applied = 0 ↔ a.applied = 0) :
    TicksAlike (.ok (q, .ok a)) (.ok (q, .ok b))

/-- A zero as long as a map is empty. -/
def zeroUnlessFilled (h : Handle .dynamicMap) (facts : Facts) (_ : Unit) :
    Except Fault (Option Int64) := do
  return if (← facts.get h).isEmpty then some 0 else none

/-- A map of nested values, and a set of numbers that is copied for the next tick.  The set gets a
zero if the map is empty; the rule for that is not monotone. -/
def ledger : Program :=
  let script : Setup Unit := do
    let values ← Setup.declare .dynamicMap "values"
    let seen ← Setup.declare (.set .int) "seen"
    Setup.join .unit seen .sameTick (zeroUnlessFilled values)
    Setup.copy seen seen .nextTick
  (script.runOn (create 0 "n" none)).2

/-- A value for the map of `ledger`, at a key under the key `"k"`. -/
def ledgerEntry (key : String) (value : Dynamic) : Deposit :=
  ⟨0, .add .dynamicMap ⟨"k", .ofMap (.singleton key value)⟩⟩

/-- A whole map for `ledger` to merge. -/
def ledgerMap : Deposit :=
  ⟨0, .merge .dynamicMap (.singleton "k" (.ofMap (.singleton "x" (.ofMaxInt ⟨5⟩))))⟩

/-- Deposits that fit together, and all have an effect in this order. -/
def fitting : List Deposit :=
  [ledgerEntry "x" (.ofMaxInt ⟨3⟩), ledgerMap, ledgerEntry "y" (.ofFlag ⟨true⟩),
    ⟨1, .add (.set .int) 1⟩]

/-- The same deposits again, with the whole map before the value that is in it. -/
def fittingAgain : List Deposit :=
  [⟨1, .add (.set .int) 1⟩, ledgerMap, ⟨1, .add (.set .int) 1⟩, ledgerEntry "y" (.ofFlag ⟨true⟩),
    ledgerEntry "x" (.ofMaxInt ⟨3⟩)]

/-- Deposits whose values do not fit together at the key `"x"`. -/
def torn : List Deposit := [ledgerEntry "x" (.ofFlag ⟨true⟩), ledgerMap]

/-- A tick cannot tell queues apart that hold the same deposits.  Whatever the rules and the
relations are, if two programs differ only in the order and the multiplicity of what waits for each
relation, then their ticks both break off, both fail, or both complete; where they do not break off,
they leave the same program, with the same relations and the same queue, and report the same, but
for how many of the deposits had an effect of their own. -/
theorem tick_requeued {p : Program} {queue : List Deposit} (patience : Nat)
    (hqueue : ∀ slot w, ⟨slot, w⟩ ∈ queue ↔ ⟨slot, w⟩ ∈ p.pending) :
    TicksAlike (p.tick patience) (({ p with pending := queue } : Program).tick patience) := by
  have hmem : ∀ d, d ∈ p.pending ↔ d ∈ queue := fun d => (hqueue d.slot d.write).symm
  cases hstart : p.store.resetScratch.depositAll p.id p.pending with
  | error fault =>
      obtain ⟨fault', hstart'⟩ := Store.exists_fault_congr hmem hstart
      have htick : p.tick patience = .error fault := bind_eq_error.2 (.inl hstart)
      have htick' : ({ p with pending := queue } : Program).tick patience = .error fault' :=
        bind_eq_error.2 (.inl hstart')
      rw [htick, htick']
      refine .faulted (iff_of_false ?_ ?_)
      · rintro rfl
        exact Store.depositAll_ne_exhausted hstart
      · rintro rfl
        exact Store.depositAll_ne_exhausted hstart'
  | ok r =>
      obtain ⟨start, applied⟩ := r
      obtain ⟨applied', hstart'⟩ := Store.exists_depositAll_congr hmem hstart
      have happlied : applied' = 0 ↔ applied = 0 := by
        have hgrew := (Store.depositAll_least hstart).2.2.2
        have hgrew' := (Store.depositAll_least hstart').2.2.2
        have hiff : 0 < applied' ↔ 0 < applied := hgrew'.trans hgrew.symm
        omega
      -- from here on the two ticks are one
      have hsame : ({ p with pending := queue } : Program).sameTickRules = p.sameTickRules := rfl
      have hnext : ({ p with pending := queue } : Program).nextTickRules = p.nextTickRules := rfl
      unfold Program.tick
      simp only [hstart, hstart', hsame, hnext, bind, Except.bind]
      cases settle p.id p.sameTickRules (p.passLimit.getD patience) 0 start with
      | error fault => exact .faulted Iff.rfl
      | ok settled =>
          cases settled with
          | stable store count =>
              dsimp only
              cases allConsequences ⟨p.id, store⟩ p.nextTickRules with
              | error fault => exact .faulted Iff.rfl
              | ok next => exact .completed _ rfl happlied
          | unstable store =>
              cases p.passLimit with
              | none => exact .faulted Iff.rfl
              | some limit => exact .failed _ _

theorem tick_requeued_ledger :
    (∃ q a b, ({ ledger with pending := fitting } : Program).tick 3 = .ok (q, .ok a) ∧
        ({ ledger with pending := fittingAgain } : Program).tick 3 = .ok (q, .ok b) ∧
        b = { a with applied := b.applied } ∧ a.applied = 4 ∧ b.applied = 3 ∧ a.queued = 1) ∧
      ∃ a b, ({ ledger with pending := torn } : Program).tick 3 = .error a ∧
        ({ ledger with pending := torn.reverse ++ torn } : Program).tick 3 = .error b ∧
        a ≠ b := by
  constructor
  · have hqueue : ∀ slot w, ⟨slot, w⟩ ∈ fittingAgain ↔
        ⟨slot, w⟩ ∈ ({ ledger with pending := fitting } : Program).pending := by
      intro slot w
      simp only [fitting, fittingAgain, List.mem_cons, List.not_mem_nil, or_false]
      tauto
    have halike := tick_requeued 3 hqueue
    obtain ⟨q, a, hp, happlied, hqueued⟩ : ∃ q a, ({ ledger with pending := fitting } :
        Program).tick 3 = .ok (q, .ok a) ∧ a.applied = 4 ∧ a.queued = 1 :=
      ⟨_, _, rfl, by decide, by decide⟩
    obtain ⟨q', b, hq, happlied'⟩ : ∃ q' b, ({ ledger with pending := fittingAgain } :
        Program).tick 3 = .ok (q', .ok b) ∧ b.applied = 3 := ⟨_, _, rfl, by decide⟩
    change TicksAlike _ (({ ledger with pending := fittingAgain } : Program).tick 3) at halike
    rw [hp, hq] at halike
    cases halike with
    | completed _ hreport _ => exact ⟨q, a, b, hp, hq, hreport, happlied, happlied', hqueued⟩
  · exact ⟨_, _, rfl, rfl, by decide⟩

end Program

end Ratchet
