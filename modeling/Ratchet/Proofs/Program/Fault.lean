import Ratchet.Program.Fault

/-!
# Sums in range

A checked sum is there just if the sum of the integers is in range, and then it is that sum.
-/

namespace Ratchet

variable {a b c : Int64}

theorem checkedAdd_eq_ok : checkedAdd a b = .ok c ↔ a.toInt + b.toInt = c.toInt := by
  have hmin : Int64.minValue.toInt = -2 ^ 63 := by decide
  have hmax : Int64.maxValue.toInt = 2 ^ 63 - 1 := by decide
  unfold checkedAdd
  rw [hmin, hmax]
  constructor
  · intro h
    split at h
    · next hrange =>
        cases h
        rw [Int64.toInt_add, Int.bmod_eq_of_le (by omega) (by omega)]
    · cases h
  · intro h
    have hle := c.le_toInt
    have hlt := c.toInt_lt
    rw [if_pos (by omega)]
    refine congrArg Except.ok (Int64.toInt_inj.1 ?_)
    rw [Int64.toInt_add, h, Int.bmod_eq_of_le (by omega) (by omega)]

/-- Every integer but the greatest one has a successor. -/
theorem exists_checkedAdd_one (h : a ≠ Int64.maxValue) : ∃ b, checkedAdd a 1 = .ok b := by
  have hmax : Int64.maxValue.toInt = 2 ^ 63 - 1 := by decide
  have hone : (1 : Int64).toInt = 1 := by decide
  have hlt : a.toInt < 2 ^ 63 - 1 := by
    have hne : a.toInt ≠ 2 ^ 63 - 1 := fun heq => h (Int64.toInt_inj.1 (heq.trans hmax.symm))
    have hle := a.toInt_lt
    omega
  have hmin := a.le_toInt
  refine ⟨.ofInt (a.toInt + 1), checkedAdd_eq_ok.2 ?_⟩
  rw [hone, Int64.toInt_ofInt_of_le (by omega) (by omega)]

theorem checkedAdd_maxValue_one : checkedAdd Int64.maxValue 1 = .error .overflow :=
  if_neg (by decide)

end Ratchet
