import Ratchet.Proofs.Program.Derived
import Ratchet.Proofs.Program.Growth

/-!
# What a tick goes through

Between the reset of the scratch relations and its end, a tick does nothing but make deposits: first
those that waited for it, and then those that its rules ask for, pass after pass
(`exists_depositAll_of_tick`).  So the states that it goes through are those between two deposits
(`Program.stages`), whether the tick comes to a fixpoint or is given up by a bounded program.

Every deposit moves up, hence every stage is above all earlier ones (`pairwise_stages`).  Scratch
relations are no exception.  They only go down from the end of one tick to the first stage of the
next one, and that is why the statement about whole runs is restricted to the other relations, while
the one about a single tick is not.

## Main result

* `Program.run_ascends`: relations in a run, relations in a tick, and what a deposit tells.
-/

namespace Ratchet

variable {program : Nat} {rs : List Rule} {S T U : Store}

/-! ## Lists of deposits -/

theorem Store.exists_depositAll_append {ds es : List Deposit} {a b : Nat}
    (hds : S.depositAll program ds = .ok (T, a)) (hes : T.depositAll program es = .ok (U, b)) :
    ∃ count, S.depositAll program (ds ++ es) = .ok (U, count) := by
  induction ds generalizing S a with
  | nil =>
      cases hds
      exact ⟨b, hes⟩
  | cons d ds ih =>
      obtain ⟨R, grew, rest, hd, hds, _⟩ := Store.depositAll_cons hds
      obtain ⟨count, hrest⟩ := ih hds
      exact ⟨_, bind_eq_ok.2 ⟨_, hd, bind_eq_ok.2 ⟨_, hrest, rfl⟩⟩⟩

/-- A pass makes the deposits that its rules ask for. -/
theorem exists_depositAll_of_pass {changed : Bool} (h : pass program rs S = .ok (T, changed)) :
    ∃ count, S.depositAll program (passDeposits program rs S) = .ok (T, count) := by
  induction rs generalizing S changed with
  | nil =>
      cases h
      exact ⟨0, rfl⟩
  | cons r rs ih =>
      obtain ⟨R, more, hfire, hpass, _⟩ := pass_cons h
      obtain ⟨ds, count, hds, hall⟩ := Rule.fire_eq_ok.1 hfire
      obtain ⟨rest, hrest⟩ := ih hpass
      rw [passDeposits, hds, hfire]
      exact Store.exists_depositAll_append hall hrest

/-- So do all passes together, whether they settle or not. -/
theorem exists_depositAll_of_settle {limit done : Nat} {settled : Settled}
    (h : settle program rs limit done S = .ok settled) :
    ∃ count, S.depositAll program (settleDeposits program rs limit S) =
      .ok (settled.store, count) := by
  induction limit generalizing S done with
  | zero =>
      cases h
      exact ⟨0, rfl⟩
  | succ limit ih =>
      obtain ⟨⟨R, changed⟩, hpass, h⟩ := bind_eq_ok.1 h
      obtain ⟨count, hall⟩ := exists_depositAll_of_pass hpass
      rw [settleDeposits, hpass]
      cases changed with
      | false =>
          cases h
          exact ⟨count, by rw [List.append_nil]; exact hall⟩
      | true =>
          obtain ⟨rest, hrest⟩ := ih h
          exact Store.exists_depositAll_append hall hrest

/-- A tick makes the deposits that waited for it and those that its rules ask for, and no others. -/
theorem Program.exists_depositAll_of_tick {p q : Program} {patience : Nat}
    {result : Except ProgramError TickReport} (h : p.tick patience = .ok (q, result)) :
    ∃ count, p.store.resetScratch.depositAll p.id (p.pending ++ p.derived patience) =
      .ok (q.store, count) := by
  obtain ⟨⟨start, applied⟩, hstart, h⟩ := bind_eq_ok.1 h
  obtain ⟨settled, hsettle, h⟩ := bind_eq_ok.1 h
  have hstore : q.store = settled.store := by
    cases settled with
    | stable store count =>
        obtain ⟨_, _, heq⟩ := bind_eq_ok.1 h
        cases heq
        rfl
    | unstable store =>
        dsimp only at h
        split at h <;> cases h
        rfl
  obtain ⟨count, hall⟩ := exists_depositAll_of_settle hsettle
  rw [Program.derived, hstart, hstore]
  exact Store.exists_depositAll_append hstart hall

/-! ## Stages -/

/-- The stores that a list of deposits leads through, with the one before the first deposit. -/
def Store.stages (program : Nat) : Store → List Deposit → List Store
  | S, [] => [S]
  | S, d :: ds =>
    S :: match S.deposit program d with
      | .ok (T, _) => stages program T ds
      | .error _ => []

/-- The stores that a tick goes through, from the reset of the scratch relations on. -/
def Program.stages (patience : Nat) (p : Program) : List Store :=
  Store.stages p.id p.store.resetScratch (p.pending ++ p.derived patience)

namespace Store

variable {d : Deposit} {ds : List Deposit}

theorem head?_stages : (stages program S ds).head? = some S := by
  cases ds <;> rfl

theorem getLast?_stages {count : Nat} (h : S.depositAll program ds = .ok (T, count)) :
    (stages program S ds).getLast? = some T := by
  induction ds generalizing S count with
  | nil =>
      cases h
      rfl
  | cons d ds ih =>
      obtain ⟨R, grew, rest, hd, hds, _⟩ := depositAll_cons h
      rw [stages, hd]
      dsimp only
      rw [List.getLast?_cons, ih hds]
      rfl

/-- Every stage is above all earlier ones. -/
theorem pairwise_stages (program : Nat) (S : Store) (ds : List Deposit) :
    (stages program S ds).Pairwise Below ∧ ∀ T ∈ stages program S ds, S.Below T := by
  induction ds generalizing S with
  | nil =>
      refine ⟨List.pairwise_singleton .., ?_⟩
      intro T hT
      rw [List.mem_singleton.1 hT]
      exact S.below_refl
  | cons d ds ih =>
      rw [stages]
      cases hd : S.deposit program d with
      | error fault =>
          refine ⟨List.pairwise_singleton .., ?_⟩
          intro T hT
          rw [List.mem_singleton.1 hT]
          exact S.below_refl
      | ok r =>
          obtain ⟨R, grew⟩ := r
          obtain ⟨hpairwise, habove⟩ := ih R
          have hSR : S.Below R := (deposit_least hd).1
          have hall : ∀ T ∈ stages program R ds, S.Below T :=
            fun T hT => hSR.trans (habove T hT)
          exact ⟨List.pairwise_cons.2 ⟨hall, hpairwise⟩,
            List.forall_mem_cons.2 ⟨S.below_refl, hall⟩⟩

end Store

/-! ## Single relations -/

variable {t : RelationType} {h : Handle t}

/-- The relation has in the second store the value that it has in the first one, or a greater
one. -/
def Handle.Grows (program : Nat) (h : Handle t) (S T : Store) : Prop :=
  ∃ v w, (Facts.mk program S).get h = .ok v ∧ (Facts.mk program T).get h = .ok w ∧
    Lattice.leq v w = .ok true

theorem Handle.Declared.grows (hh : h.Declared program S) (hST : S.Below T) :
    h.Grows program S T := by
  obtain ⟨v, hv⟩ := Handle.declared_iff.1 hh
  obtain ⟨w, hw, hvw⟩ := Facts.exists_get hST hv
  exact ⟨v, w, hv, hw, Lattice.below_iff_leq.1 hvw⟩

theorem Slot.type_of_apply {s s' : Slot} {w : Write} {grew : Bool}
    (h : s.apply w = .ok (s', grew)) : s.type = w.type := by
  unfold Slot.apply at h
  split at h
  · assumption
  · cases h

namespace Program

variable {p q : Program} {patience : Nat}

/-- A deposit tells whether the relation has another value afterwards. -/
theorem grew_iff_of_depositNow {w : Write} {h : Handle w.type} {grew : Bool}
    (hq : p.depositNow h.id w = .ok (q, grew)) :
    ∃ u v, p.facts.get h = .ok u ∧ q.facts.get h = .ok v ∧ (grew = true ↔ v ≠ u) := by
  obtain ⟨_, hslot, hq⟩ := bind_eq_ok.1 hq
  obtain ⟨⟨T, _⟩, hdeposit, heq⟩ := bind_eq_ok.1 hq
  cases heq
  have hdeclared : h.Declared p.id p.store := by
    obtain ⟨s, _, hs, happly, _⟩ := Store.deposit_eq_ok hdeposit
    refine ⟨?_, s, hs, Slot.type_of_apply happly⟩
    by_contra hne
    simp [facts, Facts.slot, hne, Except.mapError] at hslot
  obtain ⟨u, hu⟩ := Handle.declared_iff.1 hdeclared
  obtain ⟨b, hb⟩ := w.exists_value
  rw [deposit_eq hu, hb] at hdeposit
  cases hmerge : Lattice.merge u b with
  | error conflict =>
      rw [hmerge] at hdeposit
      cases hdeposit
  | ok r =>
      rw [hmerge] at hdeposit
      obtain ⟨rfl, rfl⟩ := Prod.mk.inj (Except.ok.inj hdeposit)
      exact ⟨u, r.1, hu, get_assign_self hu, ((LawfulLattice.exactMerge b).eq_join hmerge).2⟩

variable {actions : List Action} {trace : List (Program × Outcome)}

/-- A relation that ticks do not reset has grown from each state of a run to all later ones. -/
theorem pairwise_grows_of_run (hrun : p.run patience actions = .ok trace)
    (hh : h.Declared p.id p.store) (hresets : h.Resets p.store false) :
    (p :: trace.map Prod.fst).Pairwise fun earlier later =>
      h.Grows p.id earlier.store later.store := by
  obtain ⟨v, hv⟩ := Handle.declared_iff.1 hh
  have hids : ∀ q ∈ p :: trace.map Prod.fst, q.id = p.id := by
    refine List.forall_mem_cons.2 ⟨rfl, ?_⟩
    intro q hq
    obtain ⟨step, hstep, rfl⟩ := List.mem_map.1 hq
    obtain ⟨prior, action, hprior, hperform⟩ := exists_perform_of_run hrun hstep
    exact (hprior.trans (sameSetup_of_perform hperform)).id_eq
  refine (pairwise_get_of_run hresets hv hrun).imp_of_mem ?_
  rintro earlier later hearlier hlater ⟨v, w, hv, hw, hvw⟩
  unfold facts at hv hw
  rw [hids earlier hearlier] at hv
  rw [hids later hlater] at hw
  exact ⟨v, w, hv, hw, Lattice.below_iff_leq.1 hvw⟩

/-- A set that is reset by every tick and copied to one that is not.  A number waits for it.  The
program makes one pass in a tick, so the first tick, in which something is copied, is given up. -/
def arriving : Program :=
  let script : Setup Unit := do
    let inbox ← Setup.declare (.set .int) "inbox"
    let seen ← Setup.declare (.set .int) "seen"
    Setup.mark .scratch inbox
    Setup.copy inbox seen .sameTick
  { (script.runOn (create 0 "n" (some 1))).2 with pending := [⟨0, .add (.set .int) 7⟩] }

/-- Relations only grow, whatever the rules are.

In a run every relation that is not scratch has, after each action, a value that is equal to or
greater than the one before it and all earlier ones, also if ticks of a bounded program are given
up.  Within a tick that holds of every relation, scratch or not: from the reset of the scratch
relations to the end of the tick, its value never goes down from one deposit to a later one.  And a
deposit that is made at once tells that the relation grew just if its value is another one
afterwards. -/
theorem run_ascends (p : Program) (patience : Nat) :
    (∀ actions trace, p.run patience actions = .ok trace → ∀ (t : RelationType) (h : Handle t),
      h.Declared p.id p.store → h.Resets p.store false →
        (p :: trace.map Prod.fst).Pairwise fun earlier later =>
          h.Grows p.id earlier.store later.store) ∧
    (∀ q result, p.tick patience = .ok (q, result) →
      (p.stages patience).head? = some p.store.resetScratch ∧
      (p.stages patience).getLast? = some q.store ∧
      ∀ (t : RelationType) (h : Handle t), h.Declared p.id p.store →
        (p.stages patience).Pairwise (h.Grows p.id)) ∧
    ∀ (t : RelationType) (h : Handle t) q grew,
      (∃ tuple, p.add h tuple = .ok (q, grew)) ∨ (∃ value, p.merge h value = .ok (q, grew)) →
        ∃ u v, p.facts.get h = .ok u ∧ q.facts.get h = .ok v ∧ (grew = true ↔ v ≠ u) := by
  refine ⟨fun actions trace hrun t h => pairwise_grows_of_run hrun, ?_, ?_⟩
  · intro q result htick
    obtain ⟨count, hall⟩ := exists_depositAll_of_tick htick
    refine ⟨Store.head?_stages, Store.getLast?_stages hall, fun t h hh => ?_⟩
    obtain ⟨hpairwise, habove⟩ :=
      Store.pairwise_stages p.id p.store.resetScratch (p.pending ++ p.derived patience)
    refine hpairwise.imp_of_mem ?_
    intro S T hS _ hST
    -- no stage has other slots than the reset store
    have hshape := p.store.sameShape_resetScratch.trans (habove S hS).sameShape
    exact (hh.of_sameShape hshape).grows hST
  · rintro t h q grew (⟨tuple, hadd⟩ | ⟨value, hmerge⟩)
    · exact grew_iff_of_depositNow (w := .add t tuple) hadd
    · exact grew_iff_of_depositNow (w := .merge t value) hmerge

/-- The second set keeps the number when the first one is reset.  Both grow in the first tick. -/
theorem run_ascends_arriving : ∃ trace q result r grew u v,
    arriving.run 1 [.tick, .tick] = .ok trace ∧
      (arriving :: trace.map Prod.fst).Pairwise (fun earlier later =>
        (⟨⟨0, 1⟩⟩ : Handle (.set .int)).Grows 0 earlier.store later.store) ∧
      arriving.tick 1 = .ok (q, .error result) ∧
      (arriving.stages 1).Pairwise ((⟨⟨0, 0⟩⟩ : Handle (.set .int)).Grows 0) ∧
      arriving.add (t := .set .int) ⟨⟨0, 1⟩⟩ 8 = .ok (r, grew) ∧
      arriving.facts.get (t := .set .int) ⟨⟨0, 1⟩⟩ = .ok u ∧
      r.facts.get (t := .set .int) ⟨⟨0, 1⟩⟩ = .ok v ∧ (grew = true ↔ v ≠ u) := by
  have hran : ((arriving.run 1 [.tick, .tick]).toOption.isSome &&
      (arriving.tick 1).toOption.any fun outcome => outcome.2.toOption.isNone) = true := by
    decide +kernel
  obtain ⟨hrun, htick⟩ := Bool.and_eq_true_iff.1 hran
  obtain ⟨trace, htrace⟩ := Option.isSome_iff_exists.1 hrun
  obtain ⟨⟨q, result⟩, htick, hgiven⟩ := (Option.any_eq_true _ _).1 htick
  obtain ⟨hruns, hticks, hdeposits⟩ := run_ascends arriving 1
  cases result with
  | ok report => cases hgiven
  | error e =>
      obtain ⟨_, _, hstages⟩ := hticks q _ (toOption_eq_some.1 htick)
      obtain ⟨u, v, hu, hv, hgrew⟩ :=
        hdeposits (.set .int) ⟨⟨0, 1⟩⟩ _ _ (.inl ⟨8, rfl⟩)
      exact ⟨trace, q, e, _, _, u, v, toOption_eq_some.1 htrace,
        hruns _ trace (toOption_eq_some.1 htrace) _ ⟨⟨0, 1⟩⟩ ⟨rfl, _, rfl, rfl⟩ ⟨_, rfl, rfl⟩,
        toOption_eq_some.1 htick, hstages _ ⟨⟨0, 0⟩⟩ ⟨rfl, _, rfl, rfl⟩, rfl, hu, hv, hgrew⟩

end Program

end Ratchet
