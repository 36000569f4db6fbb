import Ratchet.Proofs.KeyValue.Fold

/-!
# Folding the same writes again

Every pass of a tick folds the writes that have arrived onto the map that is stored by then.  What
the first pass merged is part of that map, and so is whatever else was merged since.  Folding the
writes again gives, for the keys that they touch, what is stored there already, and it skips the
writes that were skipped before.

`foldValues` says what the writes to one key make of its value, and `skips` which writes are skipped
on the way, as seen by the folding itself: against what it has collected so far.  By
`skips_of_below` this depends on the final map only, and every later map has the same verdict.

## Main result

* `mergeCompatible_refolds`: what is collected for the touched keys, that merging it succeeds, and
  that folding again onto any later map changes nothing.
-/

namespace Ratchet.KeyValue

variable {stored merged current later : StringMap Dynamic} {k : String}
  {writes : List (String × Dynamic)}

/-! ## One key -/

/-- A value after a write to its key: the join of the two if there is one, and the value itself if
there is none; the first write to an absent key is its value. -/
def foldValue (held : Option Dynamic) (value : Dynamic) : Dynamic :=
  match held with
  | none => value
  | some held => (held.join value).toOption.getD held

/-- What a list of writes to one key makes of its value, from left to right. -/
def foldValues (held : Option Dynamic) (values : List Dynamic) : Option Dynamic :=
  values.foldl (fun held value => some (foldValue held value)) held

/-- The values that are written to a key, in order. -/
def valuesFor (k : String) (writes : List (String × Dynamic)) : List Dynamic :=
  (writes.filter fun w => w.1 = k).map Prod.snd

theorem get?_write_eq_foldValue {value : Dynamic} :
    (write stored k value).get? k = some (foldValue (stored.get? k) value) := by
  unfold write foldValue
  cases hheld : stored.get? k with
  | none => exact StringMap.get?_put_self
  | some held =>
      cases hjoin : held.join value with
      | ok joined =>
          simp only [hjoin]
          exact StringMap.get?_put_self
      | error conflict =>
          simp only [hjoin]
          exact hheld

theorem get?_fold_eq_foldValues :
    (fold stored writes).get? k = foldValues (stored.get? k) (valuesFor k writes) := by
  induction writes generalizing stored with
  | nil => rfl
  | cons w writes ih =>
      rw [fold_cons, ih]
      by_cases hk : w.1 = k
      · subst hk
        simp [valuesFor, foldValues, get?_write_eq_foldValue]
      · rw [get?_write_of_ne (Ne.symm hk)]
        simp [valuesFor, hk]

/-! ## Touched keys -/

theorem isSome_get?_foldl_mergeWrite : ((writes.foldl (mergeWrite stored) merged).get? k).isSome ↔
    (merged.get? k).isSome ∨ k ∈ writes.map Prod.fst := by
  induction writes generalizing merged with
  | nil => simp
  | cons w writes ih =>
      rw [List.foldl_cons, ih, List.map_cons, List.mem_cons, mergeWrite, StringMap.get?_put]
      by_cases hk : k = w.1 <;> simp [hk]

/-- The touched keys, and no others, are collected. -/
theorem isSome_get?_mergeCompatible :
    ((mergeCompatible stored writes).get? k).isSome ↔ k ∈ writes.map Prod.fst :=
  isSome_get?_foldl_mergeWrite.trans (by simp)

theorem get?_mergeCompatible_of_not_mem (hk : k ∉ writes.map Prod.fst) :
    (mergeCompatible stored writes).get? k = none := by
  cases hnew : (mergeCompatible stored writes).get? k with
  | none => rfl
  | some new =>
      exact absurd (isSome_get?_mergeCompatible.1 (Option.isSome_iff_exists.2 ⟨new, hnew⟩)) hk

/-- For a touched key, what folding gives is what is collected. -/
theorem get?_mergeCompatible_of_mem (hk : k ∈ writes.map Prod.fst) :
    (mergeCompatible stored writes).get? k = (fold stored writes).get? k := by
  obtain ⟨new, hnew⟩ := Option.isSome_iff_exists.1 (isSome_get?_mergeCompatible.2 hk)
  rw [get?_fold, hnew]
  rfl

/-! ## Skipped writes -/

/-- Whether a write is skipped, because it cannot be merged into what its key holds. -/
def isSkipped (held : Option Dynamic) (value : Dynamic) : Bool :=
  match held with
  | none => false
  | some held => !(held.merge value).isOk

/-- For each write, whether the folding skips it, from what has been collected so far. -/
def skips (stored merged : StringMap Dynamic) : List (String × Dynamic) → List Bool
  | [] => []
  | w :: writes =>
    isSkipped ((merged.get? w.1).or (stored.get? w.1)) w.2 ::
      skips stored (mergeWrite stored merged w) writes

/-- Merging succeeds if there is a join, and only then. -/
theorem isOk_merge (a b : Dynamic) : (a.merge b).isOk = (a.join b).isOk := by
  have hlaw : ExactMerge Dynamic.join Dynamic.merge b := LawfulLattice.exactMerge b
  cases hjoin : a.join b with
  | ok c =>
      obtain ⟨grew, hmerge⟩ := hlaw.exists_merge hjoin
      rw [hmerge]
      rfl
  | error conflict =>
      cases hmerge : a.merge b with
      | ok result => cases hjoin.symm.trans (hlaw.eq_join hmerge).1
      | error conflict' => rfl

theorem isSkipped_eq {value : Dynamic} :
    isSkipped (stored.get? k) value = !accepts stored k value := by
  unfold isSkipped accepts
  cases stored.get? k with
  | none => rfl
  | some held => exact congrArg not (isOk_merge held value)

/-- Maps above the one that folding leads to have the verdicts that the folding had. -/
theorem skips_of_below (hcurrent : ∀ k, current.get? k = (merged.get? k).or (stored.get? k))
    (h : Lattice.Below (fold current writes) later) :
    skips stored merged writes = writes.map fun w => !accepts later w.1 w.2 := by
  induction writes generalizing merged current with
  | nil => rfl
  | cons w writes ih =>
      rw [fold_cons] at h
      rw [skips, ← hcurrent, isSkipped_eq, List.map_cons, accepts_of_below (below_fold.trans h),
        ih (get?_write_mergeWrite hcurrent w) h]

/-! ## Main result -/

/-- The touched keys are collected, each with its writes folded from left to right; merging the
collection into the stored map replaces the values of these keys and no others.  On any map above
that, folding the same writes again collects the values that are stored there, and skips the same
writes. -/
theorem mergeCompatible_refolds (stored : StringMap Dynamic) (writes : List (String × Dynamic)) :
    (∀ k, ((mergeCompatible stored writes).get? k).isSome ↔ k ∈ writes.map Prod.fst) ∧
    (∀ k ∈ writes.map Prod.fst, (mergeCompatible stored writes).get? k =
      foldValues (stored.get? k) (valuesFor k writes)) ∧
    ∃ stored' grew, stored.merge (mergeCompatible stored writes) = .ok (stored', grew) ∧
      (∀ k, stored'.get? k = if k ∈ writes.map Prod.fst
        then (mergeCompatible stored writes).get? k else stored.get? k) ∧
      ∀ later, Lattice.leq stored' later = .ok true →
        (∀ k ∈ writes.map Prod.fst, (mergeCompatible later writes).get? k = later.get? k) ∧
        skips later .empty writes = skips stored .empty writes := by
  obtain ⟨grew, hmerge⟩ : ∃ grew, stored.merge (mergeCompatible stored writes) =
      .ok (fold stored writes, grew) :=
    (LawfulLattice.exactMerge (mergeCompatible stored writes)).exists_merge join_mergeCompatible
  refine ⟨fun _ => isSome_get?_mergeCompatible, fun k hk => ?_, fold stored writes, grew, hmerge,
    fun k => ?_, fun later hlater => ?_⟩
  · rw [get?_mergeCompatible_of_mem hk, get?_fold_eq_foldValues]
  · by_cases hk : k ∈ writes.map Prod.fst
    · rw [if_pos hk, get?_mergeCompatible_of_mem hk]
    · rw [if_neg hk, get?_fold, get?_mergeCompatible_of_not_mem hk]
      rfl
  · have hbelow : Lattice.Below (fold stored writes) later := Lattice.below_iff_leq.2 hlater
    have hsame : fold later writes = later := fold_of_below hbelow
    refine ⟨fun k hk => ?_, ?_⟩
    · rw [get?_mergeCompatible_of_mem hk, hsame]
    · -- either way the verdicts are those of the later map
      have hfirst : skips stored .empty writes = writes.map fun w => !accepts later w.1 w.2 :=
        skips_of_below (fun _ => rfl) hbelow
      have hagain : skips later .empty writes = writes.map fun w => !accepts later w.1 w.2 :=
        skips_of_below (fun _ => rfl) (hsame.symm ▸ Lattice.below_refl later)
      exact hagain.trans hfirst.symm

/-- A map that holds a count under one key. -/
def counting (n : Int64) : StringMap Dynamic :=
  .ofList [("a", .ofMap (.ofList [("count", .ofMaxInt ⟨n⟩)]))]

/-- Writes to two keys; the first one conflicts with a count, and the fourth one with the third. -/
def twoConflicts : List (String × Dynamic) :=
  [("a", .ofMap (.ofList [("count", .ofFlag ⟨true⟩), ("lost", .ofFlag ⟨true⟩)])),
    ("a", .ofMap (.ofList [("done", .ofFlag ⟨true⟩)])),
    ("b", .ofMaxInt ⟨3⟩), ("b", .ofMaxText ⟨"4"⟩), ("b", .ofMaxInt ⟨5⟩)]

/-- What these writes make of a map that holds a count. -/
def counted (n : Int64) : StringMap Dynamic :=
  .ofList [("a", .ofMap (.ofList [("count", .ofMaxInt ⟨n⟩), ("done", .ofFlag ⟨true⟩)])),
    ("b", .ofMaxInt ⟨5⟩)]

/-- When the count has grown, folding the writes again changes nothing and skips the same two. -/
theorem mergeCompatible_refolds_counted :
    (counting 1).merge (mergeCompatible (counting 1) twoConflicts) = .ok (counted 1, true) ∧
    Lattice.leq (counted 1) (counted 7) = .ok true ∧
    (mergeCompatible (counted 7) twoConflicts).get? "a" = (counted 7).get? "a" ∧
    skips (counted 7) .empty twoConflicts = [true, false, false, true, false] := by
  have hmerge : (counting 1).merge (mergeCompatible (counting 1) twoConflicts) =
      .ok (counted 1, true) := by decide +kernel
  have hgrown : Lattice.leq (counted 1) (counted 7) = .ok true := by decide +kernel
  have hskips : skips (counting 1) .empty twoConflicts = [true, false, false, true, false] := by
    decide +kernel
  obtain ⟨_, _, stored', grew, hmerge', _, hlater⟩ :=
    mergeCompatible_refolds (counting 1) twoConflicts
  obtain ⟨rfl, _⟩ := Prod.mk.inj (Except.ok.inj (hmerge.symm.trans hmerge'))
  obtain ⟨hsame, hagain⟩ := hlater (counted 7) hgrown
  exact ⟨hmerge, hgrown, hsame "a" (by decide), hagain.trans hskips⟩

end Ratchet.KeyValue
