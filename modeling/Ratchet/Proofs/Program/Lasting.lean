import Ratchet.Proofs.Program.Mail

/-!
# Facts that last

A register forgets what it held before: a greater value takes the place of a smaller one.  But what
is at the upper end of its range stays.  A fact is *lasting* if growing never takes it out of a
relation, and nothing but adding it puts it in (`RelationType.Lasting`).  The greatest integer is
such a fact of an integer register, and truth is one of a flag.

So for lasting facts deposits into registers are as good as deposits into sets.  The fact is there
afterwards just if it was there before or one of the deposits carries it
(`exists_get_of_depositAll_lasting`).  At the start of a tick those are the deposits that wait for
it (`Program.mem_tuples_of_start`).

One half of this is so for all facts.  A register makes nothing up: what it holds it held before, or
it was given (`RelationType.Gathers`).
-/

namespace Ratchet

/-- The fact is in a grown relation just if it was there before or is what the relation grew by. -/
structure RelationType.Lasting (t : RelationType) (x : t.Tuple) : Prop where
  add : ∀ (a : t.Value) (y : t.Tuple) (r : t.Value × Bool), Relation.add a y = .ok r →
    (x ∈ Relation.tuples r.1 ↔ x ∈ Relation.tuples a ∨ x = y)
  merge : ∀ (a b : t.Value) (r : t.Value × Bool), Lattice.merge a b = .ok r →
    (x ∈ Relation.tuples r.1 ↔ x ∈ Relation.tuples a ∨ x ∈ Relation.tuples b)

theorem lasting_max : RelationType.Lasting .max Int64.maxValue where
  add a n r h := by
    cases h
    rw [MaxInt.mem_tuples, MaxInt.mem_tuples, MaxInt.maxValue_add, eq_comm (a := n)]
  merge a b r h := by
    cases h
    rw [MaxInt.mem_tuples, MaxInt.mem_tuples, MaxInt.mem_tuples, MaxInt.maxValue_add]

theorem lasting_flag : RelationType.Lasting .flag true where
  add a b r h := by
    cases h
    rw [Flag.mem_tuples, Flag.mem_tuples, Flag.value_add, eq_comm (a := b)]
  merge a b r h := by
    cases h
    rw [Flag.mem_tuples, Flag.mem_tuples, Flag.mem_tuples, Flag.value_add]

section Lasting

variable {t : RelationType} {x : t.Tuple} (hx : t.Lasting x)

include hx

theorem RelationType.Lasting.mem_of_addAll {a b : t.Value} {ys : List t.Tuple}
    (h : Relation.addAll a ys = .ok b) :
    x ∈ Relation.tuples b ↔ x ∈ Relation.tuples a ∨ x ∈ ys := by
  induction ys generalizing a with
  | nil =>
      obtain rfl := Relation.addAll_nil.1 h
      simp
  | cons y ys ih =>
      obtain ⟨r, hadd, hrest⟩ := Relation.addAll_cons.1 h
      rw [ih hrest, hx.add a y r hadd, List.mem_cons, or_assoc]

end Lasting

/-- A grown relation has no facts but those that were there before and those that it grew by. -/
structure RelationType.Gathers (t : RelationType) : Prop where
  add : ∀ (a : t.Value) (y : t.Tuple) (r : t.Value × Bool), Relation.add a y = .ok r →
    ∀ x ∈ Relation.tuples r.1, x ∈ Relation.tuples a ∨ x = y
  merge : ∀ (a b : t.Value) (r : t.Value × Bool), Lattice.merge a b = .ok r →
    ∀ x ∈ Relation.tuples r.1, x ∈ Relation.tuples a ∨ x ∈ Relation.tuples b

theorem gathers_max : RelationType.Gathers .max where
  add a n r h x hx := by
    cases h
    rw [MaxInt.mem_tuples] at hx ⊢
    rcases a.add_eq_or n with heq | heq
    · exact .inl (heq ▸ hx)
    · exact .inr (heq ▸ hx.symm)
  merge a b r h x hx := by
    cases h
    rw [MaxInt.mem_tuples] at hx ⊢
    rcases a.add_eq_or b.value with heq | heq
    · exact .inl (heq ▸ hx)
    · exact .inr (MaxInt.mem_tuples.2 (heq ▸ hx))

theorem gathers_set {f : FactType} : RelationType.Gathers (.set f) where
  add a y r h x hx := by
    cases h
    exact (GrowSet.mem_insert.1 hx).symm
  merge a b r h x hx := by
    obtain ⟨hjoin, _⟩ := (LawfulLattice.exactMerge b).eq_join h
    have hunion : a.union b = r.1 := Except.ok.inj hjoin
    rw [← hunion] at hx
    exact GrowSet.mem_union.1 hx

theorem RelationType.Gathers.of_addAll {t : RelationType} (ht : t.Gathers) {a b : t.Value}
    {x : t.Tuple} {ys : List t.Tuple} (h : Relation.addAll a ys = .ok b)
    (hx : x ∈ Relation.tuples b) : x ∈ Relation.tuples a ∨ x ∈ ys := by
  induction ys generalizing a with
  | nil =>
      obtain rfl := Relation.addAll_nil.1 h
      exact .inl hx
  | cons y ys ih =>
      obtain ⟨r, hadd, hrest⟩ := Relation.addAll_cons.1 h
      rcases ih hrest with hx | hx
      · refine (ht.add a y r hadd x hx).imp_right ?_
        rintro rfl
        exact List.mem_cons_self
      · exact .inr (List.mem_cons_of_mem y hx)

/-! ## Deposits -/

/-- The write puts the fact into a relation, alone or with others. -/
def Write.Carries {t : RelationType} (w : Write) (x : t.Tuple) : Prop :=
  w = .add t x ∨ ∃ v, w = .merge t v ∧ x ∈ Relation.tuples v

theorem Write.carries_add {t : RelationType} {x y : t.Tuple} :
    (Write.add t y).Carries x ↔ x = y := by
  simp [Carries, eq_comm]

theorem Write.carries_merge {t : RelationType} {x : t.Tuple} {v : t.Value} :
    (Write.merge t v).Carries x ↔ x ∈ Relation.tuples v := by
  simp [Carries]

section Deposits

variable {program : Nat} {S T : Store} {t : RelationType} {h : Handle t} {v : t.Value}
  {x : t.Tuple}

/-- What a deposit does to a relation: nothing, or it adds its fact to it, or it merges a whole
relation into it. -/
theorem get_of_deposit_cases {d : Deposit} {grew : Bool}
    (hv : (Facts.mk program S).get h = .ok v) (hdeposit : S.deposit program d = .ok (T, grew)) :
    (d.slot ≠ h.id.slot ∧ (Facts.mk program T).get h = .ok v) ∨
      d.slot = h.id.slot ∧ ∃ r : t.Value × Bool, (Facts.mk program T).get h = .ok r.1 ∧
        ((∃ y, d.write = .add t y ∧ Relation.add v y = .ok r) ∨
          ∃ b, d.write = .merge t b ∧ Lattice.merge v b = .ok r) := by
  by_cases hslot : d.slot = h.id.slot
  · refine .inr ⟨hslot, ?_⟩
    obtain ⟨slot, write⟩ := d
    have htype : t = write.type := Store.type_of_deposit hv hslot hdeposit
    dsimp only at hslot
    subst hslot
    cases write with
    | add u y =>
        change t = u at htype
        subst htype
        obtain ⟨r, hadd, rfl, _⟩ := (deposit_add_eq_ok hv).1 hdeposit
        exact ⟨r, get_assign_self hv, .inl ⟨y, rfl, hadd⟩⟩
    | merge u b =>
        change t = u at htype
        subst htype
        rw [deposit_eq (x := .merge t b) hv] at hdeposit
        change (liftConflict (Lattice.merge v b)).map _ = _ at hdeposit
        cases hmerge : Lattice.merge v b with
        | error conflict =>
            rw [hmerge] at hdeposit
            cases hdeposit
        | ok r =>
            rw [hmerge] at hdeposit
            cases hdeposit
            exact ⟨r, get_assign_self hv, .inr ⟨b, rfl, hmerge⟩⟩
  · exact .inl ⟨hslot, (get_of_deposit_of_ne hslot hdeposit).trans hv⟩

section Lasting

variable (hx : t.Lasting x)

include hx

theorem exists_get_of_deposit_lasting {d : Deposit} {grew : Bool}
    (hv : (Facts.mk program S).get h = .ok v) (hdeposit : S.deposit program d = .ok (T, grew)) :
    ∃ w, (Facts.mk program T).get h = .ok w ∧
      (x ∈ Relation.tuples w ↔ x ∈ Relation.tuples v ∨ d.slot = h.id.slot ∧ d.write.Carries x) := by
  rcases get_of_deposit_cases hv hdeposit with
    ⟨hslot, hsame⟩ | ⟨hslot, r, hr, ⟨y, hwrite, hadd⟩ | ⟨b, hwrite, hmerge⟩⟩
  · exact ⟨v, hsame, by simp [hslot]⟩
  · refine ⟨r.1, hr, ?_⟩
    rw [hx.add v y r hadd, hwrite, Write.carries_add]
    simp [hslot]
  · refine ⟨r.1, hr, ?_⟩
    rw [hx.merge v b r hmerge, hwrite, Write.carries_merge]
    simp [hslot]

/-- Deposits put in the lasting facts that their writes carry. -/
theorem exists_get_of_depositAll_lasting {ds : List Deposit} {count : Nat}
    (hv : (Facts.mk program S).get h = .ok v)
    (hall : S.depositAll program ds = .ok (T, count)) :
    ∃ w, (Facts.mk program T).get h = .ok w ∧
      (x ∈ Relation.tuples w ↔
        x ∈ Relation.tuples v ∨ ∃ d ∈ ds, d.slot = h.id.slot ∧ d.write.Carries x) := by
  induction ds generalizing S v count with
  | nil =>
      cases hall
      exact ⟨v, hv, by simp⟩
  | cons d ds ih =>
      obtain ⟨R, grew, rest, hdeposit, hrest, _⟩ := Store.depositAll_cons hall
      obtain ⟨u, hu, hmem⟩ := exists_get_of_deposit_lasting hx hv hdeposit
      obtain ⟨w, hw, hmem'⟩ := ih hu hrest
      refine ⟨w, hw, ?_⟩
      rw [hmem', hmem, or_assoc]
      simp

end Lasting

section Gathers

variable (ht : t.Gathers)

include ht

theorem RelationType.Gathers.of_deposit {d : Deposit} {grew : Bool} {w : t.Value}
    (hv : (Facts.mk program S).get h = .ok v) (hdeposit : S.deposit program d = .ok (T, grew))
    (hw : (Facts.mk program T).get h = .ok w) (hx : x ∈ Relation.tuples w) :
    x ∈ Relation.tuples v ∨ d.slot = h.id.slot ∧ d.write.Carries x := by
  rcases get_of_deposit_cases hv hdeposit with
    ⟨_, hsame⟩ | ⟨hslot, r, hr, ⟨y, hwrite, hadd⟩ | ⟨b, hwrite, hmerge⟩⟩
  · cases hsame.symm.trans hw
    exact .inl hx
  · cases hr.symm.trans hw
    rw [hwrite, Write.carries_add]
    exact (ht.add v y r hadd x hx).imp_right fun heq => ⟨hslot, heq⟩
  · cases hr.symm.trans hw
    rw [hwrite, Write.carries_merge]
    exact (ht.merge v b r hmerge x hx).imp_right fun hb => ⟨hslot, hb⟩

/-- After deposits a relation has no facts but those that were there before and those that the
writes carry. -/
theorem RelationType.Gathers.of_depositAll {ds : List Deposit} {count : Nat} {w : t.Value}
    (hv : (Facts.mk program S).get h = .ok v) (hall : S.depositAll program ds = .ok (T, count))
    (hw : (Facts.mk program T).get h = .ok w) (hx : x ∈ Relation.tuples w) :
    x ∈ Relation.tuples v ∨ ∃ d ∈ ds, d.slot = h.id.slot ∧ d.write.Carries x := by
  induction ds generalizing S v count with
  | nil =>
      cases hall
      cases hv.symm.trans hw
      exact .inl hx
  | cons d ds ih =>
      obtain ⟨R, grew, rest, hdeposit, hrest, _⟩ := Store.depositAll_cons hall
      obtain ⟨u, hu, _⟩ := Facts.exists_get (Store.deposit_least hdeposit).1 hv
      rcases ih hu hrest with hx | ⟨e, he, hcarries⟩
      · exact (ht.of_deposit hv hdeposit hu hx).imp_right fun hd => ⟨d, List.mem_cons_self, hd⟩
      · exact .inr ⟨e, List.mem_cons_of_mem d he, hcarries⟩

end Gathers

end Deposits

/-! ## The start of a tick -/

/-- A deposit of the fact into the relation waits for the next tick. -/
def Program.Awaits {t : RelationType} (p : Program) (h : Handle t) (x : t.Tuple) : Prop :=
  ∃ d ∈ p.pending, d.slot = h.id.slot ∧ d.write.Carries x

/-- A tick starts with the lasting facts that were there, if the relation is not reset, and with
those that waited for it. -/
theorem Program.mem_tuples_of_start {p : Program} {start : Store} {applied : Nat}
    {t : RelationType} {h : Handle t} {v w : t.Value} {x : t.Tuple} {resets : Bool}
    (hx : t.Lasting x) (hresets : h.Resets p.store resets) (hv : p.facts.get h = .ok v)
    (hstart : p.store.resetScratch.depositAll p.id p.pending = .ok (start, applied))
    (hw : (Facts.mk p.id start).get h = .ok w) :
    x ∈ Relation.tuples w ↔
      x ∈ Relation.tuples (if resets then t.bottom else v) ∨ p.Awaits h x := by
  obtain ⟨s, hs, rfl⟩ := hresets
  obtain ⟨u, hu, hmem⟩ := exists_get_of_depositAll_lasting hx (get_resetScratch hs hv) hstart
  obtain rfl := Except.ok.inj (hu.symm.trans hw)
  exact hmem

end Ratchet
