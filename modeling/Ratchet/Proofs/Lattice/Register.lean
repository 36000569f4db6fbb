import Ratchet.Lattice.Register
import Ratchet.Proofs.Lattice.Lawful

/-!
# The laws of registers

Integer and text registers both keep the greater of two values; `lawful_of_greater` proves the laws
for every register of this form.  Flags are a matter of cases.
-/

namespace Ratchet

/-- A register that keeps the greater value, as a key in a total order tells, is lawful. -/
theorem lawful_of_greater {R κ : Type} [Lattice R] [Element κ] (key : R → κ)
    (injective : ∀ a b, key a = key b → a = b)
    (hjoin : ∀ a b : R, Lattice.join a b =
      .ok (if compare (key a) (key b) = .lt then b else a))
    (hmerge : ∀ a b : R, Lattice.merge a b =
      .ok (if compare (key a) (key b) = .lt then (b, true) else (a, false))) :
    LawfulLattice R where
  join_self a := by simp [hjoin]
  join_comm {a b c} h := by
    rw [hjoin] at h ⊢
    cases hab : compare (key a) (key b) with
    | lt =>
        have hba : compare (key b) (key a) = .gt := Element.gt_iff_lt.2 hab
        simpa [hab, hba] using h
    | eq =>
        obtain rfl := injective a b (Element.eq_iff.1 hab)
        exact h
    | gt =>
        have hba : compare (key b) (key a) = .lt := Element.gt_iff_lt.1 hab
        simpa [hab, hba] using h
  join_assoc {a b c ab abc} hab habc := by
    rw [hjoin, Except.ok.injEq] at hab habc
    refine ⟨_, hjoin b c, ?_⟩
    rw [hjoin, Except.ok.injEq, ← habc, ← hab]
    by_cases h₁ : compare (key a) (key b) = .lt <;> by_cases h₂ : compare (key b) (key c) = .lt
    · simp [h₁, h₂, Element.lt_trans h₁ h₂]
    · simp [h₁, h₂]
    · simp [h₁, h₂]
    · have h₃ : compare (key a) (key c) ≠ .lt := by
        intro h₃
        cases hbc : compare (key b) (key c) with
        | lt => exact h₂ hbc
        | eq => exact h₁ (Element.eq_iff.1 hbc ▸ h₃)
        | gt => exact h₁ (Element.lt_trans h₃ (Element.gt_iff_lt.1 hbc))
      simp [h₁, h₂, h₃]
  exactMerge b := by
    have hlt : ∀ {a : R}, compare (key a) (key b) = .lt → b ≠ a := by
      rintro a hlt rfl
      exact Element.lt_irrefl _ hlt
    constructor
    · intro a c grew h
      rw [hmerge, Except.ok.injEq] at h
      rw [hjoin]
      split at h
      · next hab =>
          cases h
          simp [hab, hlt hab]
      · next hab =>
          cases h
          simp [hab]
    · intro a c h
      rw [hjoin, Except.ok.injEq] at h
      rw [hmerge, ← h]
      split
      · exact ⟨true, rfl⟩
      · exact ⟨false, rfl⟩

/-! ## Integers and texts -/

namespace MaxInt

theorem lt_iff_compare (a b : Int64) : a < b ↔ compare a b = .lt :=
  compareOfLessAndEq_eq_lt.symm

instance : LawfulRelation MaxInt where
  toLawfulLattice := by
    refine lawful_of_greater MaxInt.value (fun ⟨_⟩ ⟨_⟩ h => congrArg mk h) ?_ ?_
    · intro a b
      simp only [Lattice.join, join, lt_iff_compare]
    · intro a b
      simp only [Lattice.merge, add, lt_iff_compare]
  add_eq_merge n := ⟨⟨n⟩, fun _ => rfl⟩

variable {a b : MaxInt} {ns : List Int64}

theorem le_add (a : MaxInt) (n : Int64) : a.value ≤ (a.add n).1.value ∧ n ≤ (a.add n).1.value := by
  unfold add
  split
  · next hlt => exact ⟨Int64.le_of_lt hlt, Int64.le_refl n⟩
  · next hlt => exact ⟨Int64.le_refl a.value, Int64.not_lt.1 hlt⟩

/-- A register ends up above all that is added to it. -/
theorem le_of_addAll (h : Relation.addAll a ns = .ok b) :
    a.value ≤ b.value ∧ ∀ n ∈ ns, n ≤ b.value := by
  induction ns generalizing a with
  | nil =>
      obtain rfl := Relation.addAll_nil.1 h
      exact ⟨Int64.le_refl _, nofun⟩
  | cons n ns ih =>
      obtain ⟨_, hadd, hrest⟩ := Relation.addAll_cons.1 h
      cases hadd
      obtain ⟨ha, hn⟩ := le_add a n
      obtain ⟨hle, hns⟩ := ih hrest
      exact ⟨Int64.le_trans ha hle, List.forall_mem_cons.2 ⟨Int64.le_trans hn hle, hns⟩⟩

theorem mem_tuples {n : Int64} : n ∈ Relation.tuples a ↔ a.value = n :=
  List.mem_singleton.trans eq_comm

/-- Adding an integer to a register gives one of the two. -/
theorem add_eq_or (a : MaxInt) (n : Int64) :
    (a.add n).1.value = a.value ∨ (a.add n).1.value = n := by
  unfold add
  split
  · exact .inr rfl
  · exact .inl rfl

/-- A register gets to the greatest integer only by adding that. -/
theorem maxValue_add (a : MaxInt) (n : Int64) :
    (a.add n).1.value = Int64.maxValue ↔ a.value = Int64.maxValue ∨ n = Int64.maxValue := by
  have ha : a.value ≤ Int64.maxValue := Int64.le_maxValue a.value
  have hn : n ≤ Int64.maxValue := Int64.le_maxValue n
  unfold add
  split
  · next hlt =>
      refine ⟨.inr, ?_⟩
      rintro (heq | heq)
      · exact absurd hlt (Int64.not_lt.2 (heq ▸ hn))
      · exact heq
  · next hlt =>
      refine ⟨.inl, ?_⟩
      rintro (heq | heq)
      · exact heq
      · exact Int64.le_antisymm ha (heq ▸ Int64.not_lt.1 hlt)

theorem toInt_ofCount (n : Nat) :
    (ofCount n).value.toInt = min (n : Int) Int64.maxValue.toInt := by
  have hlt : min n Int64.maxValue.toNatClampNeg < 2 ^ 63 :=
    Nat.lt_of_le_of_lt (Nat.min_le_right ..) (by decide)
  have hmax : (Int64.maxValue.toNatClampNeg : Int) = Int64.maxValue.toInt := by decide
  unfold ofCount
  rw [Int64.toInt_ofNat_of_lt hlt, ← hmax]
  omega

theorem ofCount_le_ofCount {m n : Nat} (h : m ≤ n) : (ofCount m).value ≤ (ofCount n).value := by
  rw [Int64.le_iff_toInt_le, toInt_ofCount, toInt_ofCount]
  omega

theorem add_of_le {a : MaxInt} {n : Int64} (h : a.value ≤ n) : (a.add n).1 = ⟨n⟩ := by
  unfold add
  split
  · rfl
  · next hlt =>
      obtain ⟨m⟩ := a
      exact congrArg mk (Int64.le_antisymm h (Int64.not_lt.1 hlt))

theorem toInt_add (a : MaxInt) (n : Int64) :
    (a.add n).1.value.toInt = max a.value.toInt n.toInt := by
  unfold add
  split
  · next hlt =>
      have hle : a.value.toInt < n.toInt := Int64.lt_iff_toInt_lt.1 hlt
      dsimp only
      omega
  · next hlt =>
      have hle : n.toInt ≤ a.value.toInt := Int64.le_iff_toInt_le.1 (Int64.not_lt.1 hlt)
      dsimp only
      omega

theorem join_eq_add (a b : MaxInt) : a.join b = (a.add b.value).1 := by
  unfold join add
  split <;> rfl

theorem eq_of_addAll (h : Relation.addAll a ns = .ok b) (hns : ∀ n ∈ ns, n ≤ a.value) : b = a := by
  induction ns with
  | nil => exact Relation.addAll_nil.1 h
  | cons n ns ih =>
      obtain ⟨_, hadd, hrest⟩ := Relation.addAll_cons.1 h
      cases hadd
      obtain ⟨hn, hns⟩ := List.forall_mem_cons.1 hns
      have hsame : (a.add n).1 = a := by
        unfold add
        rw [if_neg (Int64.not_lt.2 hn)]
      rw [hsame] at hrest
      exact ih hrest hns

end MaxInt

namespace MaxText

theorem lt_iff_compare (a b : String) : a < b ↔ compare a b = .lt :=
  compareOfLessAndEq_eq_lt.symm

instance : LawfulRelation MaxText where
  toLawfulLattice := by
    refine lawful_of_greater MaxText.value (fun ⟨_⟩ ⟨_⟩ h => congrArg mk h) ?_ ?_
    · intro a b
      simp only [Lattice.join, join, lt_iff_compare]
    · intro a b
      simp only [Lattice.merge, add, lt_iff_compare]
  add_eq_merge s := ⟨⟨s⟩, fun _ => rfl⟩

end MaxText

/-! ## Flags -/

instance : LawfulRelation Flag where
  join_self a := by simp [Lattice.join, Flag.join]
  join_comm {a b c} h := by
    rw [← h]
    simp [Lattice.join, Flag.join, Bool.or_comm]
  join_assoc {a b c ab abc} hab habc := by
    simp only [Lattice.join, Flag.join, Except.ok.injEq] at hab habc ⊢
    subst hab habc
    simp [Bool.or_assoc]
  exactMerge b := by
    constructor
    · intro a c grew h
      obtain ⟨rfl, rfl⟩ := Prod.mk.inj (Except.ok.inj h)
      obtain ⟨a⟩ := a
      obtain ⟨b⟩ := b
      cases a <;> cases b <;> simp [Lattice.join, Flag.join]
    · intro a c h
      exact ⟨_, congrArg (fun c => Except.ok (c, _)) (Except.ok.inj h)⟩
  add_eq_merge b := ⟨⟨b⟩, fun _ => rfl⟩

theorem Flag.mem_tuples {a : Flag} {b : Bool} : b ∈ Relation.tuples a ↔ a.value = b :=
  List.mem_singleton.trans eq_comm

theorem Flag.value_add (a : Flag) (b : Bool) :
    (a.add b).1.value = true ↔ a.value = true ∨ b = true :=
  Bool.or_eq_true_iff

/-- What is above a raised flag is raised. -/
theorem Flag.value_of_below {a b : Flag} (hab : Lattice.Below a b) (ha : a.value = true) :
    b.value = true := by
  have hjoin : a.join b = b := Except.ok.inj hab
  rw [← hjoin, join, ha, Bool.true_or]

theorem Flag.value_of_addAll {a b : Flag} {bs : List Bool} (h : Relation.addAll a bs = .ok b) :
    b.value = true ↔ a.value = true ∨ true ∈ bs := by
  induction bs generalizing a with
  | nil =>
      obtain rfl := Relation.addAll_nil.1 h
      simp
  | cons c bs ih =>
      obtain ⟨_, hadd, hrest⟩ := Relation.addAll_cons.1 h
      cases hadd
      rw [ih hrest]
      cases c <;> simp [Flag.add]

end Ratchet
