import Mathlib.Data.List.Perm.Subperm
import Ratchet.Lattice.GrowSet
import Ratchet.Proofs.Lattice.Ascending
import Ratchet.Proofs.Lattice.Lawful

/-!
# The laws of grow-only sets

A set is its members (`GrowSet.ext_mem`), and both the interleaving of two sets and the insertion
of one into the other have the members of both.  So the two ways of joining agree, and the laws are
those of disjunction.  The growth signal compares sizes; that is exact because inserting an element
either changes nothing or adds one to the size.
-/

namespace Ratchet.GrowSet

variable {α : Type} [Element α] {s t u : GrowSet α} {a x : α}

theorem ext_mem (h : ∀ x, x ∈ s ↔ x ∈ t) : s = t := by
  have helements : s.elements = t.elements := eq_of_mem_iff id s.ascending t.ascending h
  cases s
  cases t
  subst helements
  rfl

@[simp] theorem not_mem_empty : x ∉ (empty : GrowSet α) := List.not_mem_nil

theorem contains_iff : s.contains a ↔ a ∈ s := decide_eq_true_iff

theorem mem_union : x ∈ s.union t ↔ x ∈ s ∨ x ∈ t := by
  refine ⟨fun h => mem_of_mem_unionElements h, ?_⟩
  suffices h : ∀ {as bs : List α}, (bs.Pairwise fun a b => compare a b = .lt) →
      x ∈ as ∨ x ∈ bs → x ∈ unionElements as bs from h t.ascending
  intro as
  induction as with
  | nil => simp [unionElements]
  | cons a as ih =>
      intro bs hbs hx
      have htail := hbs.sublist (List.dropWhile_sublist fun b => compare b a != .gt)
      simp only [unionElements, List.mem_append, List.mem_cons]
      rcases hx with hx | hx
      · rcases List.mem_cons.1 hx with rfl | hx
        · exact .inr (.inl rfl)
        · exact .inr (.inr (ih htail (.inl hx)))
      · cases hxa : compare x a with
        | lt => exact .inl (mem_takeWhile_of_lt hbs hx hxa)
        | eq => exact .inr (.inl (Element.eq_iff.1 hxa))
        | gt =>
            refine .inr (.inr (ih htail (.inr ?_)))
            exact mem_dropWhile_of_not hx (by simpa using hxa)

/-! ## Insertion -/

theorem insert_of_mem (h : a ∈ s) : s.insert a = s := by
  apply ext_mem
  intro x
  rw [mem_insert]
  exact ⟨fun hx => hx.elim (fun heq => heq ▸ h) id, .inr⟩

theorem size_insert_of_not_mem (h : a ∉ s) : (s.insert a).size = s.size + 1 := by
  suffices hlist : ∀ as : List α, a ∉ as → (insertElement a as).length = as.length + 1 from
    hlist s.elements h
  intro as
  induction as with
  | nil => simp [insertElement]
  | cons b bs ih =>
      intro hnot
      rw [List.mem_cons, not_or] at hnot
      simp only [insertElement]
      split
      · rfl
      · next heq => exact absurd (Element.eq_iff.1 heq) hnot.1
      · simp [ih hnot.2]

theorem insert_eq_self_iff : s.insert a = s ↔ a ∈ s := by
  refine ⟨?_, insert_of_mem⟩
  intro h
  rw [← h]
  exact mem_insert.2 (.inl rfl)

theorem mem_foldl_insert {as : List α} : x ∈ as.foldl insert s ↔ x ∈ s ∨ x ∈ as := by
  induction as generalizing s with
  | nil => simp
  | cons a as ih =>
      rw [List.foldl_cons, ih, mem_insert, List.mem_cons, or_comm (a := x = a), or_assoc]

/-- Inserting elements leaves a set as it is, or makes it larger. -/
theorem foldl_insert_eq_or_size_lt (as : List α) (s : GrowSet α) :
    as.foldl insert s = s ∨ s.size < (as.foldl insert s).size := by
  induction as generalizing s with
  | nil => exact .inl rfl
  | cons a as ih =>
      rw [List.foldl_cons]
      by_cases ha : a ∈ s
      · rw [insert_of_mem ha]
        exact ih s
      · have hsize := size_insert_of_not_mem ha
        rcases ih (s.insert a) with h | h
        · rw [h]
          omega
        · omega

/-- A set takes in all facts. -/
theorem addAll_eq {as : List α} : Relation.addAll s as = .ok (as.foldl insert s) := by
  induction as generalizing s with
  | nil => rfl
  | cons a as ih => exact Relation.addAll_cons.2 ⟨_, rfl, ih⟩

theorem mem_of_addAll {as : List α} (h : Relation.addAll s as = .ok t) :
    x ∈ t ↔ x ∈ s ∨ x ∈ as := by
  obtain rfl := Except.ok.inj (addAll_eq.symm.trans h)
  exact mem_foldl_insert

@[simp] theorem mem_singleton : x ∈ singleton a ↔ x = a := by
  simp [singleton, mem_insert]

@[simp] theorem mem_ofList {as : List α} : x ∈ ofList as ↔ x ∈ as := by
  simp [ofList, mem_foldl_insert]

/-! ## Size -/

theorem nodup_elements (s : GrowSet α) : s.elements.Nodup :=
  nodup_of_ascending id s.ascending

theorem size_le_of_forall_mem (h : ∀ x ∈ s, x ∈ t) : s.size ≤ t.size :=
  (s.nodup_elements.subperm h).length_le

/-- A subset that is not smaller is the whole set. -/
theorem eq_of_size_le (h : ∀ x ∈ s, x ∈ t) (hsize : t.size ≤ s.size) : s = t := by
  have hperm : s.elements.Perm t.elements :=
    (s.nodup_elements.subperm h).perm_of_length_le hsize
  exact ext_mem fun x => hperm.mem_iff

/-- Two sets that are too large for one list to hold them apart have a member in common. -/
theorem exists_mem_of_length_lt {xs : List α} (hs : ∀ x ∈ s, x ∈ xs) (ht : ∀ x ∈ t, x ∈ xs)
    (hsize : xs.length < s.size + t.size) : ∃ x, x ∈ s ∧ x ∈ t := by
  by_contra hnone
  have hdisjoint : ∀ x ∈ s.elements, ∀ y ∈ t.elements, x ≠ y := by
    rintro x hx _ hy rfl
    exact hnone ⟨x, hx, hy⟩
  have hnodup : (s.elements ++ t.elements).Nodup :=
    List.nodup_append.2 ⟨s.nodup_elements, t.nodup_elements, hdisjoint⟩
  have hsubset : s.elements ++ t.elements ⊆ xs := fun x hx =>
    (List.mem_append.1 hx).elim (hs x) (ht x)
  have hle := (hnodup.subperm hsubset).length_le
  rw [List.length_append] at hle
  unfold size at hsize
  omega

/-! ## The laws -/

theorem merge_eq : s.merge t = (s.union t, decide (s.union t ≠ s)) := by
  have hunion : t.elements.foldl insert s = s.union t :=
    ext_mem fun x => mem_foldl_insert.trans mem_union.symm
  have hgrew : ((s.union t).size != s.size) = decide (s.union t ≠ s) := by
    have hcases := foldl_insert_eq_or_size_lt t.elements s
    rw [hunion] at hcases
    rcases hcases with h | h
    · simp [h]
    · have hne : s.union t ≠ s := by
        intro heq
        rw [heq] at h
        omega
      have hsize : (s.union t).size ≠ s.size := by omega
      simp [hne, hsize]
  simp only [merge, hunion, hgrew]

theorem union_singleton : s.union (singleton a) = s.insert a :=
  ext_mem fun x => by rw [mem_union, mem_singleton, mem_insert, or_comm]

instance : LawfulRelation (GrowSet α) where
  join_self s := congrArg Except.ok (ext_mem fun x => by simp [mem_union])
  join_comm {s t u} h := by
    rw [← h]
    exact congrArg Except.ok (ext_mem fun x => by rw [mem_union, mem_union, or_comm])
  join_assoc {s t u st stu} hst hstu := by
    obtain rfl := Except.ok.inj hst
    obtain rfl := Except.ok.inj hstu
    exact ⟨_, rfl, congrArg Except.ok (ext_mem fun x => by simp only [mem_union, or_assoc])⟩
  exactMerge t := by
    constructor
    · intro s u grew h
      simp only [Lattice.merge, merge_eq, Except.ok.injEq, Prod.mk.injEq] at h
      obtain ⟨rfl, rfl⟩ := h
      exact ⟨rfl, decide_eq_true_iff⟩
    · intro s u h
      obtain rfl := Except.ok.inj h
      exact ⟨_, congrArg Except.ok merge_eq⟩
  add_eq_merge a := by
    refine ⟨singleton a, ?_⟩
    intro s
    simp only [Relation.add, Lattice.merge, merge_eq, union_singleton]
    by_cases ha : a ∈ s
    · simp [insert_of_mem ha, contains_iff.2 ha]
    · have hnot : s.contains a = false := Bool.eq_false_iff.2 (mt contains_iff.1 ha)
      simp [insert_eq_self_iff, ha, hnot]

/-- A set is below another one if it is a subset. -/
theorem below_iff : Lattice.Below s t ↔ ∀ x ∈ s, x ∈ t := by
  constructor
  · intro h x hx
    have hunion : s.union t = t := Except.ok.inj h
    rw [← hunion]
    exact mem_union.2 (.inl hx)
  · intro h
    refine congrArg Except.ok (ext_mem fun x => ?_)
    rw [mem_union]
    exact ⟨fun hx => hx.elim (h x) id, .inr⟩

theorem mem_of_below (h : Lattice.Below s t) (hx : x ∈ s) : x ∈ t := below_iff.1 h x hx

end Ratchet.GrowSet
