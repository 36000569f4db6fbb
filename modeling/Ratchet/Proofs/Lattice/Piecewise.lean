import Ratchet.Proofs.Lattice.Dynamic

/-!
# Adding tuple by tuple

A relation can be merged into another one as a whole, or its tuples can be added one after the
other.  Each kind of relation has code of its own for the two, and adding meets values that merging
never sees.

Neither is looked into here.  A value *absorbs* a fact if adding the fact changes nothing, and both
ways end with a least value: adding facts with the least one above the start that absorbs them all
(`addEach_eq_ok`), merging with the least one above both sides (`Lattice.merge_eq_ok_iff_least`).
These are the same values if to be above a relation is to absorb its tuples, which is what
`Relation.Spanned` says of a kind of relations.  Which of the facts made the value grow does not
come up: one of them did just if the value is not the one from the start.

Order and repetition of the facts have no place in that description.  So collecting facts, which is
adding them to bottom, does not depend on them either.
-/

namespace Ratchet

namespace Lattice

variable {α : Type} [Lattice α] {a b c : α} {grew : Bool}

/-- The value has the property, and is below all others that have it. -/
def IsLeast (P : α → Prop) (b : α) : Prop := P b ∧ ∀ c, P c → Below b c

theorem IsLeast.congr {P Q : α → Prop} (h : ∀ c, P c ↔ Q c) : IsLeast P b ↔ IsLeast Q b := by
  unfold IsLeast
  simp only [h]

variable [LawfulLattice α]

theorem IsLeast.unique {P : α → Prop} (hb : IsLeast P b) (hc : IsLeast P c) : b = c :=
  (hb.2 c hc.1).antisymm (hc.2 b hb.1)

theorem join_eq_ok_iff_least : join a b = .ok c ↔ IsLeast (fun d => Below a d ∧ Below b d) c := by
  constructor
  · intro h
    exact ⟨⟨below_left h, below_right h⟩, fun d hd => below_of_join h hd.1 hd.2⟩
  · rintro ⟨⟨hac, hbc⟩, hleast⟩
    obtain ⟨d, hjoin, hdc⟩ := exists_join hac hbc
    have hcd : Below c d := hleast d ⟨below_left hjoin, below_right hjoin⟩
    rw [hjoin, hdc.antisymm hcd]

/-- Merging gives the least value above both sides, and tells whether that is the left one. -/
theorem merge_eq_ok_iff_least : merge a b = .ok (c, grew) ↔
    IsLeast (fun d => Below a d ∧ Below b d) c ∧ (grew = true ↔ c ≠ a) := by
  rw [merge_eq_ok, join_eq_ok_iff_least]

end Lattice

open Ratchet.Lattice

namespace Relation

variable {R T : Type} [Relation R T] {a b c : R} {t : T} {ts us : List T} {grew : Bool}

/-- Facts added one after the other, and whether one of them made the relation grow. -/
def addEach (a : R) : List T → Except Mismatch (R × Bool)
  | [] => .ok (a, false)
  | t :: ts => do
    let (b, grew) ← add a t
    let (c, more) ← addEach b ts
    return (c, grew || more)

theorem addEach_cons : addEach a (t :: ts) = .ok (c, grew) ↔ ∃ b first more,
    add a t = .ok (b, first) ∧ addEach b ts = .ok (c, more) ∧ grew = (first || more) := by
  constructor
  · intro h
    obtain ⟨⟨b, first⟩, hadd, h⟩ := bind_eq_ok.1 h
    obtain ⟨⟨c', more⟩, hrest, heq⟩ := bind_eq_ok.1 h
    cases heq
    exact ⟨b, first, more, hadd, hrest, rfl⟩
  · rintro ⟨b, first, more, hadd, hrest, rfl⟩
    exact bind_eq_ok.2 ⟨_, hadd, bind_eq_ok.2 ⟨_, hrest, rfl⟩⟩

theorem addAll_eq_addEach : addAll a ts = (addEach a ts).map Prod.fst := by
  induction ts generalizing a with
  | nil => rfl
  | cons t ts ih =>
      unfold addAll at ih ⊢
      rw [List.foldlM_cons]
      unfold addEach
      cases add a t with
      | error conflict => rfl
      | ok r =>
          change List.foldlM _ r.1 ts = _
          rw [ih]
          change _ = (addEach r.1 ts >>= fun s => Except.ok (s.1, r.2 || s.2)).map Prod.fst
          cases addEach r.1 ts <;> rfl

/-- The fact is in the relation already. -/
def Absorbs (a : R) (t : T) : Prop := add a t = .ok (a, false)

section Lawful

variable [LawfulRelation R]

theorem Absorbs.mono (ht : Absorbs a t) (hab : Below a b) : Absorbs b t := by
  obtain ⟨d, hd⟩ := LawfulRelation.add_eq_merge (R := R) t
  unfold Absorbs at ht ⊢
  rw [hd, merge_eq_self_iff] at ht ⊢
  exact ht.trans hab

/-- Adding a fact gives the least value above that absorbs it, and tells whether that is a new
one. -/
theorem add_eq_ok_iff_least : add a t = .ok (b, grew) ↔
    IsLeast (fun c => Below a c ∧ Absorbs c t) b ∧ (grew = true ↔ b ≠ a) := by
  obtain ⟨d, hd⟩ := LawfulRelation.add_eq_merge (R := R) t
  have habsorbs : ∀ c : R, Below d c ↔ Absorbs c t := by
    intro c
    rw [Absorbs, hd, merge_eq_self_iff]
  rw [hd, merge_eq_ok_iff_least]
  simp only [habsorbs]

theorem exists_add (hac : Below a c) (ht : Absorbs c t) : ∃ r, add a t = .ok r := by
  obtain ⟨d, hd⟩ := LawfulRelation.add_eq_merge (R := R) t
  rw [Absorbs, hd, merge_eq_self_iff] at ht
  obtain ⟨b, hjoin, _⟩ := exists_join hac ht
  obtain ⟨grew, hmerge⟩ := (LawfulLattice.exactMerge d).exists_merge hjoin
  exact ⟨_, (hd a).trans hmerge⟩

/-- The values above `a` that absorb all of the facts. -/
def Takes (a : R) (ts : List T) (c : R) : Prop := Below a c ∧ ∀ t ∈ ts, Absorbs c t

theorem least_of_addEach (h : addEach a ts = .ok (b, grew)) :
    IsLeast (Takes a ts) b ∧ (grew = true ↔ b ≠ a) := by
  induction ts generalizing a grew with
  | nil =>
      cases h
      exact ⟨⟨⟨below_refl _, nofun⟩, fun c hc => hc.1⟩, by simp⟩
  | cons t ts ih =>
      obtain ⟨mid, first, more, hadd, hrest, rfl⟩ := addEach_cons.1 h
      obtain ⟨⟨⟨hamid, htmid⟩, hleastmid⟩, hfirst⟩ := add_eq_ok_iff_least.1 hadd
      obtain ⟨⟨⟨hmidb, htsb⟩, hleastb⟩, hmore⟩ := ih hrest
      refine ⟨⟨⟨hamid.trans hmidb, ?_⟩, ?_⟩, ?_⟩
      · exact List.forall_mem_cons.2 ⟨htmid.mono hmidb, htsb⟩
      · rintro c ⟨hac, hc⟩
        obtain ⟨htc, htsc⟩ := List.forall_mem_cons.1 hc
        exact hleastb c ⟨hleastmid c ⟨hac, htc⟩, htsc⟩
      · -- growth in the middle cannot be undone by what follows
        rw [Bool.or_eq_true, hfirst, hmore]
        constructor
        · rintro hne rfl
          have hsame : mid = b := hmidb.antisymm hamid
          exact hne.elim (fun h => h hsame) fun h => h hsame.symm
        · intro hne
          by_cases hmid : mid = a
          · exact .inr (hmid ▸ hne)
          · exact .inl hmid

theorem exists_addEach (hc : Takes a ts c) : ∃ r, addEach a ts = .ok r := by
  induction ts generalizing a with
  | nil => exact ⟨_, rfl⟩
  | cons t ts ih =>
      obtain ⟨hac, hts⟩ := hc
      obtain ⟨htc, htsc⟩ := List.forall_mem_cons.1 hts
      obtain ⟨⟨mid, first⟩, hadd⟩ := exists_add hac htc
      have hmidc : Below mid c := (add_eq_ok_iff_least.1 hadd).1.2 c ⟨hac, htc⟩
      obtain ⟨⟨b, more⟩, hrest⟩ := ih ⟨hmidc, htsc⟩
      exact ⟨_, addEach_cons.2 ⟨mid, first, more, hadd, hrest, rfl⟩⟩

/-- Adding facts gives the least value above that absorbs them all, and tells whether that is a new
one. -/
theorem addEach_eq_ok : addEach a ts = .ok (b, grew) ↔
    IsLeast (Takes a ts) b ∧ (grew = true ↔ b ≠ a) := by
  refine ⟨least_of_addEach, ?_⟩
  rintro ⟨hb, hgrew⟩
  obtain ⟨⟨b', grew'⟩, h⟩ := exists_addEach hb.1
  obtain ⟨hb', hgrew'⟩ := least_of_addEach h
  obtain rfl := hb.unique hb'
  have hsame : grew = grew' := Bool.eq_iff_iff.2 (hgrew.trans hgrew'.symm)
  rw [h, hsame]

/-- Neither the order of the facts nor how often they occur matters. -/
theorem addEach_congr (hmem : ∀ t, t ∈ ts ↔ t ∈ us) {x : R × Bool} :
    addEach a ts = .ok x ↔ addEach a us = .ok x := by
  obtain ⟨b, grew⟩ := x
  have htakes : ∀ c, Takes a ts c ↔ Takes a us c := fun c =>
    and_congr_right fun _ => forall_congr' fun t => by rw [hmem]
  rw [addEach_eq_ok, addEach_eq_ok, IsLeast.congr htakes]

theorem addAll_congr (hmem : ∀ t, t ∈ ts ↔ t ∈ us) :
    addAll a ts = .ok b ↔ addAll a us = .ok b := by
  have hcongr : ∀ x, addEach a ts = .ok x ↔ addEach a us = .ok x := fun x => addEach_congr hmem
  rw [addAll_eq_addEach, addAll_eq_addEach]
  cases hts : addEach a ts with
  | ok x => rw [(hcongr x).1 hts]
  | error conflict =>
      cases hus : addEach a us with
      | error conflict' => exact iff_of_false nofun nofun
      | ok x => cases hts.symm.trans ((hcongr x).2 hus)

end Lawful

/-! ## Relations and their tuples -/

variable (R) in
/-- To be above a relation is to absorb its tuples. -/
def Spanned : Prop := ∀ r c : R, Below r c ↔ ∀ t ∈ tuples r, Absorbs c t

/-- Adding the tuples of a relation, in any order and any number of times each, is merging the
relation. -/
theorem Spanned.addEach_eq_merge [LawfulRelation R] (hR : Spanned R) {r : R}
    (hmem : ∀ t, t ∈ ts ↔ t ∈ tuples r) {x : R × Bool} :
    addEach a ts = .ok x ↔ merge a r = .ok x := by
  obtain ⟨b, grew⟩ := x
  have htakes : ∀ c, Takes a ts c ↔ Below a c ∧ Below r c := by
    intro c
    rw [hR r c]
    exact and_congr_right fun _ => forall_congr' fun t => by rw [hmem]
  rw [addEach_eq_ok, merge_eq_ok_iff_least, IsLeast.congr htakes]

/-- A register consists of one tuple, which describes all of it. -/
theorem spanned_of_single [LawfulRelation R] (value : R → T)
    (htuples : ∀ r : R, tuples r = [value r])
    (hadd : ∀ c r : R, add c (value r) = merge c r) : Spanned R := by
  intro r c
  rw [htuples, List.forall_mem_singleton, Absorbs, hadd, merge_eq_self_iff]

end Relation

open Ratchet.Relation

theorem GrowSet.absorbs_iff {T : Type} [Element T] {s : GrowSet T} {x : T} :
    Absorbs s x ↔ x ∈ s := by
  change Except.ok (s.insert x, !s.contains x) = .ok (s, false) ↔ x ∈ s
  rw [Except.ok.injEq, Prod.mk.injEq, insert_eq_self_iff, Bool.not_eq_false', contains_iff]
  exact and_self_iff

theorem GrowSet.spanned (T : Type) [Element T] : Spanned (GrowSet T) := by
  intro s t
  simp only [absorbs_iff]
  exact below_iff

theorem MaxInt.spanned : Spanned MaxInt := spanned_of_single value (fun _ => rfl) fun _ _ => rfl

theorem MaxText.spanned : Spanned MaxText := spanned_of_single value (fun _ => rfl) fun _ _ => rfl

theorem Flag.spanned : Spanned Flag := spanned_of_single value (fun _ => rfl) fun _ _ => rfl

namespace StringMap

variable {V : Type} [Lattice V] [LawfulLattice V] {m : StringMap V}

theorem absorbs_iff {e : MapEntry V} :
    Absorbs m e ↔ ∃ b, m.get? e.key = some b ∧ Below e.value b := by
  change m.add e.key e.value = .ok (m, false) ↔ _
  rw [add_eq_merge]
  refine merge_eq_self_iff.trans (below_iff.trans ⟨?_, ?_⟩)
  · intro h
    exact h e.key e.value (by rw [get?_singleton, if_pos rfl])
  · intro h k a ha
    rw [get?_singleton] at ha
    split at ha
    · next hk =>
        subst hk
        exact Option.some.inj ha ▸ h
    · cases ha

variable (V) in
/-- A map is spanned by its entries. -/
theorem spanned : Spanned (StringMap V) := by
  intro m n
  simp only [absorbs_iff, mem_tuples]
  refine below_iff.trans ⟨?_, ?_⟩
  · intro h e he
    exact h e.key e.value he
  · intro h k a ha
    exact h ⟨k, a⟩ ha

end StringMap

end Ratchet
