import Ratchet.Proofs.Lattice.Conflict

/-!
# Merging by other means than joining

Every kind of lattice merges in a way of its own.  A set compares its sizes before and after, a
register compares its content with what arrives, and a map puts together what its entries report.
None of them computes the join.

`MergesExactly a b` says that this makes no difference for `a` and `b`: merging ends like joining
and like `mergeOfJoin`, failures included, the signal is raised just if the value changed, and the
same merge once more changes nothing.  For a map the last point is where the other ones are not
enough.  A key that only the right map has holds its value after the first merge, and there the
second merge joins the value with itself; so the inner lattice also has to be idempotent
(`Exact.join_self`).

Maps report the conflict that joining them reports, because merging stops at their first conflict
(`StringMap.firstConflict_of_mergeEntries`) just like joining.

## Main result

* `Lattice.merge_exact`: the kinds of lattices, and the maps over any lattice that is exact.
-/

namespace Ratchet

namespace Lattice

/-! ## Exact merges -/

section Exact

variable {α : Type} [DecidableEq α]

theorem mergeOfJoin_eq_ok {join : α → α → Except Mismatch α} {a b c : α} {grew : Bool} :
    mergeOfJoin join a b = .ok (c, grew) ↔ join a b = .ok c ∧ grew = decide (c ≠ a) := by
  unfold mergeOfJoin
  cases join a b with
  | error conflict => simp [bind, Except.bind]
  | ok joined =>
      simp only [bind, Except.bind, pure, Except.pure, Except.ok.injEq, Prod.mk.injEq]
      constructor
      · rintro ⟨rfl, rfl⟩
        exact ⟨rfl, rfl⟩
      · rintro ⟨rfl, rfl⟩
        exact ⟨rfl, rfl⟩

theorem mergeOfJoin_eq_error {join : α → α → Except Mismatch α} {a b : α} {conflict : Mismatch} :
    mergeOfJoin join a b = .error conflict ↔ join a b = .error conflict := by
  unfold mergeOfJoin
  cases join a b <;> simp [bind, Except.bind, pure, Except.pure]

variable [Lattice α]

/-- Merging `b` into `a` is joining the two, and tells whether `a` changed. -/
structure MergesExactly (a b : α) : Prop where
  /-- What merging leaves is the join, and where one of the two fails the other one fails too. -/
  value_eq : (merge a b).map Prod.fst = join a b
  eq_mergeOfJoin : merge a b = mergeOfJoin join a b
  grew_iff : ∀ {c grew}, merge a b = .ok (c, grew) → (grew = true ↔ c ≠ a)
  /-- Merging the same value again changes nothing. -/
  again : ∀ {c grew}, merge a b = .ok (c, grew) → merge c b = .ok (c, false)

variable (α) in
/-- A lattice in which joining is idempotent and merging is exact. -/
structure Exact : Prop where
  join_self : ∀ a : α, join a a = .ok a
  merge : ∀ a b : α, MergesExactly a b

/-- A merge that computes the join is exact if joining a second time changes nothing. -/
theorem Exact.of_mergeOfJoin (join_self : ∀ a : α, join a a = .ok a)
    (merge_eq : ∀ a b : α, Lattice.merge a b = mergeOfJoin join a b)
    (absorb : ∀ a b c : α, join a b = .ok c → join c b = .ok c) : Exact α where
  join_self := join_self
  merge a b := by
    refine ⟨?_, merge_eq a b, ?_, ?_⟩
    · rw [merge_eq]
      unfold mergeOfJoin
      cases join a b <;> rfl
    · intro c grew h
      rw [merge_eq, mergeOfJoin_eq_ok] at h
      rw [h.2, decide_eq_true_eq]
    · intro c grew h
      rw [merge_eq, mergeOfJoin_eq_ok] at h ⊢
      exact ⟨absorb a b c h.1, by simp⟩

/-- Where merging fails like joining, the laws of lattices make it exact. -/
theorem Exact.of_lawful [LawfulLattice α]
    (merge_error : ∀ (a b : α) (conflict : Mismatch), Lattice.merge a b = .error conflict →
      join a b = .error conflict) : Exact α := by
  refine .of_mergeOfJoin LawfulLattice.join_self ?_ ?_
  · intro a b
    cases hmerge : Lattice.merge a b with
    | error conflict => exact (mergeOfJoin_eq_error.2 (merge_error a b conflict hmerge)).symm
    | ok result =>
        obtain ⟨c, grew⟩ := result
        obtain ⟨hjoin, hgrew⟩ := (LawfulLattice.exactMerge b).eq_join hmerge
        have hdecide : grew = decide (c ≠ a) := Bool.eq_iff_iff.2 (by rw [hgrew, decide_eq_true_eq])
        exact (mergeOfJoin_eq_ok.2 ⟨hjoin, hdecide⟩).symm
  · intro a b c hjoin
    exact LawfulLattice.join_comm (below_right hjoin)

namespace Exact

variable (hα : Exact α) {a b c : α}

include hα

theorem merge_eq (a b : α) : Lattice.merge a b = mergeOfJoin join a b :=
  (hα.merge a b).eq_mergeOfJoin

theorem merge_eq_error {conflict : Mismatch} :
    Lattice.merge a b = .error conflict ↔ join a b = .error conflict := by
  rw [hα.merge_eq, mergeOfJoin_eq_error]

theorem exists_merge_iff : (∃ result, Lattice.merge a b = .ok result) ↔ ∃ c, join a b = .ok c := by
  rw [hα.merge_eq]
  unfold mergeOfJoin
  cases join a b <;> simp [bind, Except.bind, pure, Except.pure]

/-- What was joined once is not changed by joining it again. -/
theorem absorb (hjoin : join a b = .ok c) : join c b = .ok c := by
  have hmerge : Lattice.merge a b = .ok (c, decide (c ≠ a)) := by
    rw [hα.merge_eq, mergeOfJoin_eq_ok]
    exact ⟨hjoin, rfl⟩
  have hagain := (hα.merge a b).again hmerge
  rw [hα.merge_eq, mergeOfJoin_eq_ok] at hagain
  exact hagain.1

theorem exactMerge (b : α) : ExactMerge join Lattice.merge b where
  eq_join {a c grew} h := by
    refine ⟨?_, (hα.merge a b).grew_iff h⟩
    rw [hα.merge_eq, mergeOfJoin_eq_ok] at h
    exact h.1
  exists_merge {a c} h := by
    obtain ⟨⟨c', grew⟩, hmerge⟩ := hα.exists_merge_iff.2 ⟨c, h⟩
    obtain ⟨hjoin, _⟩ := mergeOfJoin_eq_ok.1 (hα.merge_eq a b ▸ hmerge)
    obtain rfl := Except.ok.inj (h.symm.trans hjoin)
    exact ⟨grew, hmerge⟩

end Exact

end Exact

end Lattice

open Ratchet.Lattice

/-! ## Maps -/

namespace StringMap

/-- Merging entries of distinct keys fails at the first conflict. -/
theorem firstConflict_of_mergeEntries {V : Type} {merge : V → V → Except Mismatch (V × Bool)}
    {es fs : List (String × V)} {conflict : Mismatch} (hfs : AscendingKeys fs)
    (h : mergeEntries merge es fs = .error conflict) :
    FirstConflict (fun a b c => merge a b = .error c) es fs conflict := by
  -- merging goes through the right list
  apply FirstConflict.flip
  induction fs generalizing es with
  | nil => cases h
  | cons f fs ih =>
      obtain ⟨key, value⟩ := f
      have ⟨hhead, htail⟩ := List.pairwise_cons.1 hfs
      rw [mergeEntries] at h
      rcases bind_eq_error.1 h with hgrow | ⟨⟨grown, grew⟩, hgrow, h⟩
      · unfold growEntry at hgrow
        split at hgrow
        · cases hgrow
        · next old hold =>
            rcases bind_eq_error.1 hgrow with hclash | ⟨_, _, heq⟩
            · exact .head hfs hold hclash
            · cases heq
      · rcases bind_eq_error.1 h with hrest | ⟨_, _, heq⟩
        · refine .tail hfs ?_ ((ih htail hrest).congr_right ?_)
          · intro old hold other hclash
            rcases growEntry_eq_ok hgrow with ⟨hnone, _⟩ | ⟨old', new, hold', hnew, _⟩
            · cases hold.symm.trans hnone
            · obtain rfl := Option.some.inj (hold.symm.trans hold')
              cases hclash.symm.trans hnew
          · intro k b hb
            -- the first entry has changed no key that a later one has
            have hk : k ≠ key := by
              rintro rfl
              rw [lookup_eq_none_of_lt hhead] at hb
              cases hb
            rcases growEntry_eq_ok hgrow with ⟨_, heq⟩ | ⟨_, _, _, _, heq⟩ <;>
              obtain ⟨rfl, _⟩ := Prod.mk.inj heq <;>
              rw [lookup_putEntry, if_neg hk]
        · cases heq

variable {V : Type} [Lattice V] {m n r : StringMap V} {conflict : Mismatch}

theorem merge_eq_error (h : m.merge n = .error conflict) :
    FirstConflict (fun a b c => Lattice.merge a b = .error c) m.entries n.entries conflict := by
  refine firstConflict_of_mergeEntries n.ascending ?_
  rw [← map_entries_merge, h]
  rfl

variable [DecidableEq V] (hV : Exact V)

include hV

/-- A second join at every key changes nothing; at a key that only the right map has, because its
value joined with itself is itself. -/
theorem absorb_of_exact (h : m.join n = .ok r) : r.join n = .ok r := by
  rw [join_eq_ok] at h ⊢
  intro k
  have hk := h k
  cases hn : n.get? k with
  | none => exact joinOption_none_right
  | some b =>
      rw [hn] at hk
      cases hm : m.get? k with
      | none =>
          rw [hm] at hk
          rw [← Except.ok.inj hk]
          exact joinOption_some_eq_ok.2 ⟨b, hV.join_self b, rfl⟩
      | some a =>
          rw [hm, joinOption_some_eq_ok] at hk
          obtain ⟨c, hjoin, hc⟩ := hk
          rw [hc]
          exact joinOption_some_eq_ok.2 ⟨c, hV.absorb hjoin, rfl⟩

theorem merge_eq_of_exact (m n : StringMap V) : m.merge n = mergeOfJoin join m n := by
  have hexact : ExactMerge join merge n := exactMerge_of fun _ b _ => hV.exactMerge b
  cases hmerge : m.merge n with
  | error conflict =>
      have hfirst := merge_eq_error hmerge
      simp only [hV.merge_eq_error] at hfirst
      exact (mergeOfJoin_eq_error.2 (join_eq_error.2 hfirst)).symm
  | ok result =>
      obtain ⟨r, grew⟩ := result
      obtain ⟨hjoin, hgrew⟩ := hexact.eq_join hmerge
      have hdecide : grew = decide (r ≠ m) := Bool.eq_iff_iff.2 (by rw [hgrew, decide_eq_true_eq])
      exact (mergeOfJoin_eq_ok.2 ⟨hjoin, hdecide⟩).symm

/-- Maps over an exact lattice form one. -/
theorem exact_of_exact : Exact (StringMap V) :=
  .of_mergeOfJoin (fun _ => join_self_of fun _ a _ => hV.join_self a) (merge_eq_of_exact hV)
    fun _ _ _ => absorb_of_exact hV

/-- Two maps can be merged if the values at the keys that both have can be. -/
theorem exists_merge_iff_of_exact :
    (∃ result, m.merge n = .ok result) ↔ ∀ k a b, m.get? k = some a → n.get? k = some b →
      ∃ result, Lattice.merge a b = .ok result := by
  refine (exact_of_exact hV).exists_merge_iff.trans (exists_join_iff.trans ?_)
  simp only [hV.exists_merge_iff]

end StringMap

/-! ## The kinds of lattices -/

theorem Dynamic.exact : Exact Dynamic := by
  refine .of_lawful ?_
  intro a b conflict h
  have hjoin : (a.merge b).map Prod.fst = a.join b := map_fst_merge a b
  have h : a.merge b = .error conflict := h
  rw [h] at hjoin
  exact hjoin.symm

theorem Dynamic.conflict?_eq_none_iff_merge {a b : Dynamic} :
    a.conflict? b = none ↔ ∃ result, Lattice.merge a b = .ok result :=
  conflict?_eq_none_iff.trans Dynamic.exact.exists_merge_iff.symm

/-- Merging agrees with joining and reports growth exactly: in sets, in registers, in flags, in
maps over whatever lattice this is true of, and in values of any kind.  Sets, registers and flags
can always be merged, maps just if the values at the keys that they share can be, and values of
any kind just if they do not conflict. -/
theorem Lattice.merge_exact :
    (∀ (T : Type) [Element T], Exact (GrowSet T) ∧
      ∀ s t : GrowSet T, ∃ result, merge s t = .ok result) ∧
    (Exact MaxInt ∧ ∀ a b : MaxInt, ∃ result, merge a b = .ok result) ∧
    (Exact MaxText ∧ ∀ a b : MaxText, ∃ result, merge a b = .ok result) ∧
    (Exact Flag ∧ ∀ a b : Flag, ∃ result, merge a b = .ok result) ∧
    (∀ (V : Type) [DecidableEq V] [Lattice V], Exact V → Exact (StringMap V) ∧
      ∀ m n : StringMap V, (∃ result, merge m n = .ok result) ↔
        ∀ key a b, m.get? key = some a → n.get? key = some b → ∃ result, merge a b = .ok result) ∧
    (Exact Dynamic ∧
      ∀ a b : Dynamic, a.conflict? b = none ↔ ∃ result, merge a b = .ok result) := by
  refine ⟨fun T _ => ⟨.of_lawful nofun, fun s t => ⟨_, rfl⟩⟩,
    ⟨.of_lawful nofun, fun a b => ⟨_, rfl⟩⟩, ⟨.of_lawful nofun, fun a b => ⟨_, rfl⟩⟩,
    ⟨.of_lawful nofun, fun a b => ⟨_, rfl⟩⟩, ?_,
    ⟨Dynamic.exact, fun a b => Dynamic.conflict?_eq_none_iff_merge⟩⟩
  intro V _ _ hV
  exact ⟨StringMap.exact_of_exact hV, fun m n => StringMap.exists_merge_iff_of_exact hV⟩

/-- A map of maps meets a smaller negative integer at the key that both have and the least map at
a new one: the integer stays, the new key makes the map grow, and it does so only once. -/
theorem Lattice.merge_exact_nested :
    let m : StringMap (StringMap MaxInt) := .singleton "shared" (.singleton "low" ⟨-3⟩)
    let n : StringMap (StringMap MaxInt) :=
      (StringMap.singleton "shared" (.singleton "low" ⟨-7⟩)).put "fresh" .empty
    let r := m.put "fresh" .empty
    Exact (StringMap MaxInt) ∧ merge m n = .ok (r, true) ∧ join m n = .ok r ∧
      merge r n = .ok (r, false) := by
  intro m n r
  obtain ⟨_, ⟨hint, _⟩, _, _, hmap, _⟩ := merge_exact
  obtain ⟨hexact, _⟩ := hmap (StringMap MaxInt) (hmap MaxInt hint).1
  have hmerge : merge m n = .ok (r, true) := by decide +kernel
  have hjoin : join m n = .ok r := by
    rw [← (hexact.merge m n).value_eq, hmerge]
    rfl
  exact ⟨(hmap MaxInt hint).1, hmerge, hjoin, (hexact.merge m n).again hmerge⟩

end Ratchet
