import Ratchet.Proofs.Program.Order

/-!
# Scratch relations

Every tick begins with a reset of the scratch relations.  What the reset does to a store it does
slot by slot (`Store.getElem?_resetScratch`).  It keeps the order of stores, and done twice it is
done once.  A store that has no scratch relations is not changed.
-/

namespace Ratchet

variable {S T : Store}

namespace Slot

/-- The relation as the next tick finds it, before any deposit. -/
def restart (s : Slot) : Slot := if s.scratch then s.reset else s

variable {s t : Slot}

theorem restart_of_scratch (hst : s.SameShape t) (h : s.scratch = true) : t.restart = s.reset := by
  obtain ⟨_, rfl⟩ := hst
  exact if_pos h

theorem restart_of_lasting (hst : s.SameShape t) (h : s.scratch = false) : t.restart = t := by
  obtain ⟨_, rfl⟩ := hst
  exact if_neg (Bool.eq_false_iff.1 h)

theorem restart_mono (h : s.Below t) : s.restart.Below t.restart := by
  have hs : s.SameShape s := s.below_refl.sameShape
  cases hscratch : s.scratch with
  | true =>
      rw [restart_of_scratch hs hscratch, restart_of_scratch h.sameShape hscratch]
      exact s.reset.below_refl
  | false =>
      rw [restart_of_lasting hs hscratch, restart_of_lasting h.sameShape hscratch]
      exact h

/-- A scratch relation that was at bottom is at bottom or above. -/
theorem restart_below (h : s.restart.Below t) : t.restart.Below t := by
  have hs : s.SameShape s := s.below_refl.sameShape
  cases hscratch : s.scratch with
  | true =>
      rw [restart_of_scratch hs hscratch] at h
      rw [restart_of_scratch h.sameShape hscratch]
      exact h
  | false =>
      rw [restart_of_lasting hs hscratch] at h
      rw [restart_of_lasting h.sameShape hscratch]
      exact t.below_refl

theorem restart_restart : s.restart.restart = s.restart := by
  have hs : s.SameShape s := s.below_refl.sameShape
  cases hscratch : s.scratch with
  | true =>
      rw [restart_of_scratch hs hscratch]
      exact restart_of_scratch ⟨_, rfl⟩ hscratch
  | false => rw [restart_of_lasting hs hscratch, restart_of_lasting hs hscratch]

end Slot

namespace Store

theorem getElem?_resetScratch {i : Nat} : S.resetScratch[i]? = S[i]?.map Slot.restart :=
  List.getElem?_map

/-- Resetting keeps the order. -/
theorem resetScratch_mono (h : S.Below T) : S.resetScratch.Below T.resetScratch := by
  refine ⟨by simpa only [resetScratch, List.length_map] using h.1, ?_⟩
  intro i s' t' hs' ht'
  rw [getElem?_resetScratch] at hs' ht'
  obtain ⟨s, hs, rfl⟩ := Option.map_eq_some_iff.1 hs'
  obtain ⟨t, ht, rfl⟩ := Option.map_eq_some_iff.1 ht'
  exact Slot.restart_mono (h.2 i s t hs ht)

/-- Above a reset store, resetting goes down. -/
theorem resetScratch_below (h : S.resetScratch.Below T) : T.resetScratch.Below T := by
  refine ⟨List.length_map _, ?_⟩
  intro i t' t ht' ht
  rw [getElem?_resetScratch, ht] at ht'
  obtain rfl := Option.some.inj ht'
  obtain ⟨s', hs'⟩ := exists_of_length_eq h.1.symm ht
  have hst := h.2 i s' t hs' ht
  rw [getElem?_resetScratch] at hs'
  obtain ⟨s, _, rfl⟩ := Option.map_eq_some_iff.1 hs'
  exact Slot.restart_below hst

theorem resetScratch_resetScratch : S.resetScratch.resetScratch = S.resetScratch :=
  List.ext_getElem? fun i => by
    rw [getElem?_resetScratch, getElem?_resetScratch, Option.map_map]
    exact congrArg (Option.map · S[i]?) (funext fun _ => Slot.restart_restart)

theorem resetScratch_of_forall (h : ∀ s ∈ S, s.scratch = false) : S.resetScratch = S := by
  unfold resetScratch
  refine (List.map_congr_left ?_).trans (List.map_id S)
  intro s hs
  rw [h s hs]
  rfl

/-- Whether relations are scratch does not depend on their values. -/
theorem SameShape.forall_scratch (hST : S.SameShape T) (h : ∀ s ∈ S, s.scratch = false) :
    ∀ t ∈ T, t.scratch = false := by
  intro t ht
  obtain ⟨i, hi⟩ := List.mem_iff_getElem?.1 ht
  obtain ⟨s, hs⟩ := exists_of_length_eq hST.1.symm hi
  obtain ⟨_, rfl⟩ := hST.2 i s t hs hi
  exact h s (List.mem_of_getElem? hs)

end Store

end Ratchet
