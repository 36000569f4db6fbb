import Ratchet.Program.Store
import Ratchet.Proofs.Lattice.Dynamic

/-!
# The order of stores

A store grows slot by slot: `Store.Below` compares the values of two stores slotwise and asks that
nothing else about the slots differs.

A deposit is a join, and this file says so without naming the value that is joined.  A store
*holds* a deposit (`Deposit.Held`) if making it changes nothing.  Making a list of deposits leads to
the least store above the one before that holds them all (`depositAll_least`), and it succeeds
whenever some store above holds them all (`exists_depositAll`).  Neither the order nor the
multiplicity of the deposits occurs in that description.
-/

namespace Ratchet

/-! ## Values of relations -/

instance RelationType.lawful : (t : RelationType) → LawfulRelation t.Value
  | .max => inferInstanceAs (LawfulRelation MaxInt)
  | .maxText => inferInstanceAs (LawfulRelation MaxText)
  | .flag => inferInstanceAs (LawfulRelation Flag)
  | .set f => inferInstanceAs (LawfulRelation (GrowSet f.Carrier))
  | .map v =>
    have := RelationType.lawful v
    inferInstanceAs (LawfulRelation (StringMap v.Value))
  | .dynamicMap => inferInstanceAs (LawfulRelation (StringMap Dynamic))

/-- A write merges a value. -/
theorem Write.exists_value (w : Write) :
    ∃ b : w.type.Value, ∀ a, w.applyTo a = Lattice.merge a b := by
  cases w with
  | add t tuple => exact LawfulRelation.add_eq_merge tuple
  | merge t value => exact ⟨value, fun _ => rfl⟩

/-! ## Slots -/

namespace Slot

/-- The same slot, with a value that may differ. -/
def SameShape (s t : Slot) : Prop := ∃ v : s.type.Value, t = { s with value := v }

/-- The same slot, with a value that is equal or greater. -/
def Below (s t : Slot) : Prop :=
  ∃ v : s.type.Value, Lattice.Below s.value v ∧ t = { s with value := v }

variable {s t u : Slot} {w : Write} {grew : Bool}

theorem Below.sameShape (h : s.Below t) : s.SameShape t := by
  obtain ⟨v, _, rfl⟩ := h
  exact ⟨v, rfl⟩

theorem below_refl (s : Slot) : s.Below s := ⟨s.value, Lattice.below_refl _, rfl⟩

theorem Below.trans (hst : s.Below t) (htu : t.Below u) : s.Below u := by
  obtain ⟨v, hv, rfl⟩ := hst
  obtain ⟨w, hw, rfl⟩ := htu
  exact ⟨w, hv.trans hw, rfl⟩

theorem Below.antisymm (hst : s.Below t) (hts : t.Below s) : s = t := by
  obtain ⟨v, hv, rfl⟩ := hst
  obtain ⟨w, hw, heq⟩ := hts
  have hvalue : s.value = w := by
    cases s
    exact eq_of_heq (Slot.mk.inj heq).2.2.1
  subst hvalue
  rw [← hv.antisymm hw]

/-- On the values that a slot can have, a write either never fits or merges a fixed value. -/
theorem apply_cases (s : Slot) (w : Write) :
    (∀ v : s.type.Value, ∃ fault, ({ s with value := v } : Slot).apply w = .error fault) ∨
      ∃ b : s.type.Value, ∀ v : s.type.Value, ({ s with value := v } : Slot).apply w =
        (liftConflict (Lattice.merge v b)).map fun r => ({ s with value := r.1 }, r.2) := by
  obtain ⟨name, type, value, scratch, channel, input, output⟩ := s
  by_cases h : type = w.type
  · subst h
    obtain ⟨b, hb⟩ := w.exists_value
    refine .inr ⟨b, ?_⟩
    intro v
    simp only [apply, dif_pos, hb]
    cases Lattice.merge v b <;> rfl
  · exact .inl fun v => ⟨.misuse (.typeMismatch name w.type type), dif_neg h⟩

/-- The relation holds what is written: writing it changes nothing. -/
def Holds (s : Slot) (w : Write) : Prop := s.apply w = .ok (s, false)

/-- A write that fits a slot merges a fixed value `b`, and the slot holds it once it is above
`b`. -/
theorem exists_merge_of_apply (h : s.apply w = .ok (t, grew)) :
    ∃ b : s.type.Value,
      (∀ v c : s.type.Value, ∀ grew, ({ s with value := v } : Slot).apply w =
        .ok ({ s with value := c }, grew) ↔ Lattice.merge v b = .ok (c, grew)) ∧
      (∀ v : s.type.Value, ({ s with value := v } : Slot).Holds w ↔ Lattice.Below b v) ∧
      ∃ c, Lattice.merge s.value b = .ok (c, grew) ∧ t = { s with value := c } := by
  rcases apply_cases s w with hfault | ⟨b, hb⟩
  · obtain ⟨fault, hfault⟩ := hfault s.value
    cases hfault.symm.trans h
  · have happly : ∀ v c : s.type.Value, ∀ grew, ({ s with value := v } : Slot).apply w =
        .ok ({ s with value := c }, grew) ↔ Lattice.merge v b = .ok (c, grew) := by
      intro v c grew
      rw [hb]
      cases Lattice.merge v b with
      | error conflict => exact ⟨nofun, nofun⟩
      | ok r =>
          constructor
          · intro heq
            obtain ⟨hslot, hgrew⟩ := Prod.mk.inj (Except.ok.inj heq)
            have hvalue : r.1 = c := eq_of_heq (Slot.mk.inj hslot).2.2.1
            exact congrArg Except.ok (Prod.ext hvalue hgrew)
          · intro heq
            cases heq
            rfl
    refine ⟨b, happly, fun v => (happly v v false).trans Lattice.merge_eq_self_iff, ?_⟩
    have hs := hb s.value
    cases hmerge : Lattice.merge s.value b with
    | error conflict => rw [hmerge] at hs; cases hs.symm.trans h
    | ok r =>
        rw [hmerge] at hs
        obtain ⟨rfl, rfl⟩ := Prod.mk.inj (Except.ok.inj (hs.symm.trans h))
        exact ⟨r.1, rfl, rfl⟩

/-- A write leads to the least slot above that holds it, and tells whether that is a new one. -/
theorem apply_least (h : s.apply w = .ok (t, grew)) :
    s.Below t ∧ t.Holds w ∧ (∀ u, s.Below u → u.Holds w → t.Below u) ∧ (grew = true ↔ t ≠ s) := by
  obtain ⟨b, _, hholds, c, hmerge, rfl⟩ := exists_merge_of_apply h
  obtain ⟨hjoin, hgrew⟩ := (LawfulLattice.exactMerge b).eq_join hmerge
  refine ⟨⟨c, Lattice.below_left hjoin, rfl⟩, (hholds c).2 (Lattice.below_right hjoin), ?_, ?_⟩
  · rintro _ ⟨v, hv, rfl⟩ hv'
    exact ⟨v, Lattice.below_of_join hjoin hv ((hholds v).1 hv'), rfl⟩
  · refine hgrew.trans (not_congr ⟨?_, ?_⟩)
    · intro heq
      rw [heq]
    · intro heq
      exact eq_of_heq (Slot.mk.inj heq).2.2.1

/-- What a slot above holds can be written. -/
theorem exists_apply (hu : s.Below u) (hw : u.Holds w) : ∃ t grew, s.apply w = .ok (t, grew) := by
  obtain ⟨v, hv, rfl⟩ := hu
  obtain ⟨b, happly, hholds, _⟩ := exists_merge_of_apply hw
  obtain ⟨c, hjoin, _⟩ := Lattice.exists_join hv ((hholds v).1 hw)
  obtain ⟨grew, hmerge⟩ := (LawfulLattice.exactMerge b).exists_merge hjoin
  exact ⟨_, grew, (happly s.value c grew).2 hmerge⟩

/-- What a slot holds, every slot above holds. -/
theorem Holds.mono (hw : s.Holds w) (ht : s.Below t) : t.Holds w := by
  obtain ⟨v, hv, rfl⟩ := ht
  obtain ⟨b, _, hholds, _⟩ := exists_merge_of_apply hw
  exact (hholds v).2 (((hholds s.value).1 hw).trans hv)

end Slot

/-! ## Stores -/

/-- A deposit is held by a store that it does not change. -/
def Deposit.Held (d : Deposit) (S : Store) : Prop := ∃ s, S[d.slot]? = some s ∧ s.Holds d.write

namespace Store

/-- The same slots, with values that may differ. -/
def SameShape (S T : Store) : Prop :=
  S.length = T.length ∧
    ∀ (i : Nat) (s t : Slot), S[i]? = some s → T[i]? = some t → s.SameShape t

/-- The same slots, with values that are equal or greater. -/
def Below (S T : Store) : Prop :=
  S.length = T.length ∧
    ∀ (i : Nat) (s t : Slot), S[i]? = some s → T[i]? = some t → s.Below t

variable {S T U : Store}

theorem Below.sameShape (h : S.Below T) : S.SameShape T :=
  ⟨h.1, fun i s t hs ht => (h.2 i s t hs ht).sameShape⟩

theorem below_refl (S : Store) : S.Below S := by
  refine ⟨rfl, ?_⟩
  intro i s t hs ht
  obtain rfl := Option.some.inj (hs.symm.trans ht)
  exact s.below_refl

theorem exists_of_length_eq (h : S.length = T.length) {i : Nat} {s : Slot}
    (hs : S[i]? = some s) : ∃ t, T[i]? = some t := by
  obtain ⟨hi, _⟩ := List.getElem?_eq_some_iff.1 hs
  exact ⟨T[i], List.getElem?_eq_getElem (h ▸ hi)⟩

theorem Below.trans (hST : S.Below T) (hTU : T.Below U) : S.Below U := by
  refine ⟨hST.1.trans hTU.1, ?_⟩
  intro i s u hs hu
  obtain ⟨t, ht⟩ := exists_of_length_eq hST.1 hs
  exact (hST.2 i s t hs ht).trans (hTU.2 i t u ht hu)

theorem Below.antisymm (hST : S.Below T) (hTS : T.Below S) : S = T := by
  apply List.ext_getElem?
  intro i
  cases hs : S[i]? with
  | none =>
      rw [List.getElem?_eq_none_iff, hST.1] at hs
      exact (List.getElem?_eq_none hs).symm
  | some s =>
      obtain ⟨t, ht⟩ := exists_of_length_eq hST.1 hs
      rw [ht, (hST.2 i s t hs ht).antisymm (hTS.2 i t s ht hs)]

theorem SameShape.trans (hST : S.SameShape T) (hTU : T.SameShape U) : S.SameShape U := by
  refine ⟨hST.1.trans hTU.1, ?_⟩
  intro i s u hs hu
  obtain ⟨t, ht⟩ := exists_of_length_eq hST.1 hs
  obtain ⟨v, rfl⟩ := hST.2 i s t hs ht
  obtain ⟨w, rfl⟩ := hTU.2 i _ u ht hu
  exact ⟨w, rfl⟩

theorem SameShape.symm (hST : S.SameShape T) : T.SameShape S := by
  refine ⟨hST.1.symm, ?_⟩
  intro i t s ht hs
  obtain ⟨_, rfl⟩ := hST.2 i s t hs ht
  exact ⟨s.value, rfl⟩

theorem sameShape_resetScratch (S : Store) : S.SameShape S.resetScratch := by
  refine ⟨(List.length_map _).symm, ?_⟩
  intro i s t hs ht
  rw [resetScratch, List.getElem?_map, hs] at ht
  obtain rfl := Option.some.inj ht
  by_cases hscratch : s.scratch
  · exact ⟨s.type.bottom, if_pos hscratch⟩
  · exact ⟨s.value, if_neg hscratch⟩

end Store

/-! ## Reading -/

theorem Slot.valueAs_eq_ok {s : Slot} {t : RelationType} {v : t.Value} :
    s.valueAs t = .ok v ↔ ∃ h : s.type = t, h ▸ s.value = v := by
  unfold Slot.valueAs
  by_cases h : s.type = t
  · simp [h]
  · simp [h]

theorem Facts.slot_eq_ok {facts : Facts} {id : RelationId} {s : Slot} :
    facts.slot id = .ok s ↔ id.program = facts.program ∧ facts.store[id.slot]? = some s := by
  unfold slot
  by_cases hprogram : id.program = facts.program
  · cases hs : facts.store[id.slot]? <;> simp [hprogram]
  · simp [hprogram]

theorem Facts.get_eq_ok {t : RelationType} {program : Nat} {S : Store} {h : Handle t}
    {v : t.Value} : (Facts.mk program S).get h = .ok v ↔
      h.id.program = program ∧ ∃ s, S[h.id.slot]? = some s ∧ s.valueAs t = .ok v := by
  unfold Facts.get Facts.tryGet Facts.slot
  by_cases hprogram : h.id.program = program
  · cases hs : S[h.id.slot]? with
    | none => simp [hprogram, bind, Except.bind, Except.mapError]
    | some s =>
        cases hv : s.valueAs t <;>
          simp [hprogram, hv, bind, Except.bind, Except.mapError]
  · simp [hprogram, bind, Except.bind, Except.mapError]

/-- What can be read from a store can be read from a greater one, and is greater there. -/
theorem Facts.exists_get {t : RelationType} {program : Nat} {S T : Store} {h : Handle t}
    {v : t.Value} (hST : S.Below T) (hv : (Facts.mk program S).get h = .ok v) :
    ∃ w, (Facts.mk program T).get h = .ok w ∧ Lattice.Below v w := by
  obtain ⟨hprogram, s, hs, hread⟩ := Facts.get_eq_ok.1 hv
  obtain ⟨htype, rfl⟩ := Slot.valueAs_eq_ok.1 hread
  obtain ⟨u, hu⟩ := Store.exists_of_length_eq hST.1 hs
  obtain ⟨w, hw, rfl⟩ := hST.2 _ s u hs hu
  subst htype
  exact ⟨w, Facts.get_eq_ok.2 ⟨hprogram, _, hu, Slot.valueAs_eq_ok.2 ⟨rfl, rfl⟩⟩, hw⟩

/-! ## Deposits -/

namespace Store

variable {S T U : Store} {d : Deposit} {program : Nat} {grew : Bool}

theorem deposit_eq_ok (h : deposit program S d = .ok (T, grew)) :
    ∃ s t, S[d.slot]? = some s ∧ s.apply d.write = .ok (t, grew) ∧ T = S.set d.slot t := by
  unfold deposit at h
  split at h
  · cases h
  · next s hs =>
      obtain ⟨⟨t, g⟩, happly, heq⟩ := bind_eq_ok.1 h
      cases heq
      exact ⟨s, t, hs, happly, rfl⟩

/-- A deposit leads to the least store above that holds it, and tells whether that is a new one. -/
theorem deposit_least (h : deposit program S d = .ok (T, grew)) :
    S.Below T ∧ d.Held T ∧ (∀ U, S.Below U → d.Held U → T.Below U) ∧ (grew = true ↔ T ≠ S) := by
  obtain ⟨s, t, hs, happly, rfl⟩ := deposit_eq_ok h
  obtain ⟨hst, ht, hleast, hgrew⟩ := Slot.apply_least happly
  obtain ⟨hi, _⟩ := List.getElem?_eq_some_iff.1 hs
  have hself : (S.set d.slot t)[d.slot]? = some t := List.getElem?_set_self hi
  refine ⟨⟨(List.length_set ..).symm, ?_⟩, ⟨t, hself, ht⟩, ?_, ?_⟩
  · -- all other slots are the same
    intro i a b ha hb
    by_cases hslot : d.slot = i
    · subst hslot
      obtain rfl := Option.some.inj (hs.symm.trans ha)
      obtain rfl := Option.some.inj (hself.symm.trans hb)
      exact hst
    · rw [List.getElem?_set_ne hslot] at hb
      obtain rfl := Option.some.inj (ha.symm.trans hb)
      exact a.below_refl
  · rintro U hSU ⟨u, hu, hw⟩
    refine ⟨(List.length_set ..).trans hSU.1, ?_⟩
    intro i a b ha hb
    by_cases hslot : d.slot = i
    · subst hslot
      obtain rfl := Option.some.inj (hself.symm.trans ha)
      obtain rfl := Option.some.inj (hu.symm.trans hb)
      exact hleast u (hSU.2 _ s u hs hu) hw
    · rw [List.getElem?_set_ne hslot] at ha
      exact hSU.2 i a b ha hb
  · refine hgrew.trans (not_congr ⟨?_, ?_⟩)
    · intro heq
      obtain ⟨_, rfl⟩ := List.getElem?_eq_some_iff.1 hs
      rw [heq]
      exact List.set_getElem_self _
    · intro heq
      rw [heq, hs] at hself
      exact (Option.some.inj hself).symm

theorem exists_deposit (program : Nat) (hSU : S.Below U) (hd : d.Held U) :
    ∃ T grew, deposit program S d = .ok (T, grew) := by
  obtain ⟨u, hu, hw⟩ := hd
  obtain ⟨s, hs⟩ := exists_of_length_eq hSU.1.symm hu
  obtain ⟨t, grew, happly⟩ := Slot.exists_apply (hSU.2 _ s u hs hu) hw
  refine ⟨S.set d.slot t, grew, ?_⟩
  unfold deposit
  rw [hs]
  exact bind_eq_ok.2 ⟨_, happly, rfl⟩

end Store

theorem Deposit.Held.mono {d : Deposit} {S T : Store} (hd : d.Held S) (hST : S.Below T) :
    d.Held T := by
  obtain ⟨s, hs, hw⟩ := hd
  obtain ⟨t, ht⟩ := Store.exists_of_length_eq hST.1 hs
  exact ⟨t, ht, hw.mono (hST.2 _ s t hs ht)⟩

namespace Store

variable {S T U : Store} {ds : List Deposit} {program count : Nat}

theorem depositAll_cons {d : Deposit}
    (h : depositAll program S (d :: ds) = .ok (U, count)) :
    ∃ (T : Store) (grew : Bool) (rest : Nat), deposit program S d = .ok (T, grew) ∧
      depositAll program T ds = .ok (U, rest) ∧ count = if grew then rest + 1 else rest := by
  obtain ⟨⟨T, grew⟩, hd, h⟩ := bind_eq_ok.1 h
  obtain ⟨⟨V, rest⟩, hds, heq⟩ := bind_eq_ok.1 h
  cases heq
  exact ⟨T, grew, rest, hd, hds, rfl⟩

/-- Deposits lead to the least store above that holds them all, and their count is zero just if that
is the store from before. -/
theorem depositAll_least (h : depositAll program S ds = .ok (T, count)) :
    S.Below T ∧ (∀ d ∈ ds, d.Held T) ∧ (∀ U, S.Below U → (∀ d ∈ ds, d.Held U) → T.Below U) ∧
      (0 < count ↔ T ≠ S) := by
  induction ds generalizing S count with
  | nil =>
      cases h
      exact ⟨below_refl _, nofun, fun U hSU _ => hSU, by simp⟩
  | cons d ds ih =>
      obtain ⟨R, grew, rest, hd, hds, rfl⟩ := depositAll_cons h
      obtain ⟨hSR, hR, hleastR, hgrew⟩ := deposit_least hd
      obtain ⟨hRT, hT, hleastT, hrest⟩ := ih hds
      refine ⟨hSR.trans hRT, ?_, ?_, ?_⟩
      · exact List.forall_mem_cons.2 ⟨hR.mono hRT, hT⟩
      · intro U hSU hU
        obtain ⟨hdU, hdsU⟩ := List.forall_mem_cons.1 hU
        exact hleastT U (hleastR U hSU hdU) hdsU
      · -- growth in the middle cannot be undone by what follows
        have hsame : T = S ↔ R = S ∧ T = R := by
          constructor
          · rintro rfl
            have hRS := hRT.antisymm hSR
            exact ⟨hRS, hRS.symm⟩
          · rintro ⟨rfl, rfl⟩
            rfl
        rw [ne_eq, hsame]
        cases grew with
        | true => simp [hgrew.1 rfl]
        | false =>
            have hRS : R = S := Classical.byContradiction fun hne => nomatch hgrew.2 hne
            subst hRS
            simpa using hrest

theorem getElem?_of_deposit {d : Deposit} {grew : Bool} {i : Nat} (hne : d.slot ≠ i)
    (h : deposit program S d = .ok (T, grew)) : T[i]? = S[i]? := by
  obtain ⟨_, _, _, _, rfl⟩ := deposit_eq_ok h
  exact List.getElem?_set_ne hne

/-- Deposits leave the other slots alone. -/
theorem getElem?_of_depositAll {i : Nat} (hne : ∀ d ∈ ds, d.slot ≠ i)
    (h : depositAll program S ds = .ok (T, count)) : T[i]? = S[i]? := by
  induction ds generalizing S count with
  | nil =>
      cases h
      rfl
  | cons d ds ih =>
      obtain ⟨R, grew, rest, hdeposit, hrest, _⟩ := depositAll_cons h
      obtain ⟨hd, hds⟩ := List.forall_mem_cons.1 hne
      rw [ih hds hrest, getElem?_of_deposit hd hdeposit]

/-- Deposits that a store above holds can all be made. -/
theorem exists_depositAll (program : Nat) (hSU : S.Below U) (hU : ∀ d ∈ ds, d.Held U) :
    ∃ T count, depositAll program S ds = .ok (T, count) := by
  induction ds generalizing S with
  | nil => exact ⟨S, 0, rfl⟩
  | cons d ds ih =>
      obtain ⟨hdU, hdsU⟩ := List.forall_mem_cons.1 hU
      obtain ⟨R, grew, hd⟩ := exists_deposit program hSU hdU
      obtain ⟨T, count, hds⟩ := ih ((deposit_least hd).2.2.1 U hSU hdU) hdsU
      exact ⟨T, _, bind_eq_ok.2 ⟨_, hd, bind_eq_ok.2 ⟨_, hds, rfl⟩⟩⟩

/-- Deposits with the same members lead to the same store. -/
theorem depositAll_congr {es : List Deposit} {rest : Nat} (hmem : ∀ d, d ∈ ds ↔ d ∈ es)
    (hT : depositAll program S ds = .ok (T, count))
    (hU : depositAll program S es = .ok (U, rest)) : T = U := by
  obtain ⟨hST, hdsT, hleastT, _⟩ := depositAll_least hT
  obtain ⟨hSU, hesU, hleastU, _⟩ := depositAll_least hU
  exact (hleastT U hSU fun d hd => hesU d ((hmem d).1 hd)).antisymm
    (hleastU T hST fun d hd => hdsT d ((hmem d).2 hd))

theorem exists_depositAll_congr {es : List Deposit} (hmem : ∀ d, d ∈ ds ↔ d ∈ es)
    (hT : depositAll program S ds = .ok (T, count)) :
    ∃ rest, depositAll program S es = .ok (T, rest) := by
  obtain ⟨hST, hdsT, _⟩ := depositAll_least hT
  obtain ⟨U, rest, hU⟩ := exists_depositAll program hST fun d hd => hdsT d ((hmem d).2 hd)
  exact ⟨rest, depositAll_congr hmem hT hU ▸ hU⟩

end Store

end Ratchet
