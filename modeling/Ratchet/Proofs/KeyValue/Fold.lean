import Ratchet.Protocol.KeyValue
import Ratchet.Proofs.Lattice.Dynamic

/-!
# Folding writes onto a store

What a batch of writes is meant to do to a store is said by `fold`: the writes go onto the whole
stored map one at a time, and one that has no join with the value of its key is dropped.

A replica computes something else.  It collects the new values of the touched keys
(`mergeCompatible`), merges the collection, and does so again in every pass, onto a map that has
grown since.  The two agree because of what a single write leaves behind.  Every map above it has
the same verdict on the write (`accepts_of_below`) and is not changed by it any more
(`write_of_below`): an accepted value is below the stored one from then on, and a conflict never
goes away.  So folding again changes nothing (`fold_of_below`), whatever else was stored meanwhile,
and the verdicts can be read off the final map (`foldPuts_snd`).
-/

namespace Ratchet.KeyValue

variable {stored later : StringMap Dynamic} {key k : String} {value : Dynamic}
  {writes : List (String × Dynamic)}

/-! ## A single write -/

/-- Whether a value can be merged into what is stored under a key. -/
def accepts (stored : StringMap Dynamic) (key : String) (value : Dynamic) : Bool :=
  match stored.get? key with
  | none => true
  | some old => (old.join value).isOk

/-- A replica looks for a conflict instead of joining. -/
theorem accepts_eq : accepts stored key value =
    match stored.get? key with
    | none => true
    | some old => (old.conflict? value).isNone := by
  unfold accepts
  cases stored.get? key with
  | none => rfl
  | some old =>
      cases hjoin : old.join value with
      | ok joined =>
          have hnone : old.conflict? value = none := Dynamic.conflict?_eq_none_iff.2 ⟨joined, hjoin⟩
          simp [hjoin, hnone, Except.isOk, Except.toBool]
      | error conflict =>
          cases hconflict : old.conflict? value with
          | none =>
              obtain ⟨joined, hok⟩ := Dynamic.conflict?_eq_none_iff.1 hconflict
              cases hjoin.symm.trans hok
          | some mismatch => simp [hjoin, hconflict, Except.isOk, Except.toBool]

/-- A value that is not accepted conflicts with what is stored. -/
theorem exists_conflict_of_accepts (h : accepts stored key value = false) :
    ∃ held, stored.get? key = some held ∧ held.conflict? value ≠ none := by
  rw [accepts_eq] at h
  cases hheld : stored.get? key with
  | none =>
      rw [hheld] at h
      cases h
  | some held =>
      refine ⟨held, rfl, fun hnone => ?_⟩
      rw [hheld] at h
      dsimp only at h
      rw [hnone] at h
      cases h

/-- The stored map after a write: the value is inserted if the key is absent, joined with the
value of the key if the two have a join, and dropped otherwise. -/
def write (stored : StringMap Dynamic) (key : String) (value : Dynamic) : StringMap Dynamic :=
  match stored.get? key with
  | none => stored.put key value
  | some old =>
    match old.join value with
    | .ok joined => stored.put key joined
    | .error _ => stored

/-- A write is accepted and its value is below the one stored afterwards, or it is refused and
changes nothing, the stored value having no join with it. -/
theorem write_cases (stored : StringMap Dynamic) (key : String) (value : Dynamic) :
    (accepts stored key value = true ∧
      ∃ new, (write stored key value).get? key = some new ∧ Lattice.Below value new) ∨
    (accepts stored key value = false ∧ write stored key value = stored ∧
      ∃ old, stored.get? key = some old ∧ ¬ ∃ c, Lattice.join old value = .ok c) := by
  unfold accepts write
  cases hold : stored.get? key with
  | none => exact .inl ⟨rfl, value, StringMap.get?_put_self, Lattice.below_refl value⟩
  | some old =>
      cases hjoin : old.join value with
      | ok joined =>
          have hbelow : Lattice.Below value joined := Lattice.below_right (a := old) hjoin
          simp only [hjoin]
          exact .inl ⟨rfl, joined, StringMap.get?_put_self, hbelow⟩
      | error conflict =>
          simp only [hjoin]
          refine .inr ⟨rfl, trivial, old, rfl, ?_⟩
          rintro ⟨c, hc⟩
          cases hjoin.symm.trans hc

theorem get?_write_of_ne (h : k ≠ key) : (write stored key value).get? k = stored.get? k := by
  unfold write
  cases stored.get? key with
  | none => exact StringMap.get?_put_of_ne h
  | some old =>
      cases hjoin : old.join value with
      | ok joined =>
          simp only [hjoin]
          exact StringMap.get?_put_of_ne h
      | error conflict => simp only [hjoin]

/-- Absorbing a value into what a key holds is writing it. -/
theorem get?_write_self :
    (write stored key value).get? key = some (absorb (stored.get? key) value) := by
  unfold write absorb
  cases hold : stored.get? key with
  | none => exact StringMap.get?_put_self
  | some old =>
      cases hjoin : old.join value with
      | ok joined =>
          obtain ⟨grew, hmerge⟩ := (LawfulLattice.exactMerge value).exists_merge hjoin
          have hmerge : old.merge value = .ok (joined, grew) := hmerge
          simp only [hjoin, hmerge]
          exact StringMap.get?_put_self
      | error conflict =>
          cases hmerge : old.merge value with
          | ok result =>
              obtain ⟨hok, _⟩ := (LawfulLattice.exactMerge value).eq_join hmerge
              cases hjoin.symm.trans hok
          | error conflict' =>
              simp only [hjoin, hmerge]
              exact hold

theorem below_write : Lattice.Below stored (write stored key value) := by
  apply StringMap.below_iff.2
  intro k a ha
  by_cases hk : k = key
  · subst hk
    unfold write
    rw [ha]
    cases hjoin : a.join value with
    | ok joined =>
        simp only [hjoin]
        exact ⟨joined, StringMap.get?_put_self, Lattice.below_left (b := value) hjoin⟩
    | error conflict =>
        simp only [hjoin]
        exact ⟨a, ha, Lattice.below_refl a⟩
  · rw [get?_write_of_ne hk]
    exact ⟨a, ha, Lattice.below_refl a⟩

/-- Maps above the one that a write leaves have the verdict that the write had. -/
theorem accepts_of_below (h : Lattice.Below (write stored key value) later) :
    accepts later key value = accepts stored key value := by
  rcases write_cases stored key value with ⟨haccepts, new, hnew, hbelow⟩ |
    ⟨haccepts, hsame, old, hold, hconflict⟩
  · obtain ⟨last, hlast, hnewlast⟩ := StringMap.below_iff.1 h key new hnew
    have hjoin : last.join value = .ok last :=
      LawfulLattice.join_comm (α := Dynamic) (hbelow.trans hnewlast)
    rw [haccepts]
    unfold accepts
    rw [hlast]
    simp only [hjoin]
    rfl
  · rw [hsame] at h
    obtain ⟨last, hlast, hbelow⟩ := StringMap.below_iff.1 h key old hold
    rw [haccepts]
    unfold accepts
    rw [hlast]
    cases hjoin : last.join value with
    | error conflict => simp only [hjoin]; rfl
    | ok joined =>
        -- a join with the later value would be above the old one and the refused one
        obtain ⟨c, hc, _⟩ := Lattice.exists_join (hbelow.trans (Lattice.below_left hjoin))
          (Lattice.below_right hjoin)
        exact absurd ⟨c, hc⟩ hconflict

/-- Maps above the one that a write leaves are not changed by that write. -/
theorem write_of_below (h : Lattice.Below (write stored key value) later) :
    write later key value = later := by
  have hverdict := accepts_of_below h
  rcases write_cases stored key value with ⟨haccepts, new, hnew, hbelow⟩ | ⟨haccepts, _⟩
  · obtain ⟨last, hlast, hnewlast⟩ := StringMap.below_iff.1 h key new hnew
    have hjoin : last.join value = .ok last :=
      LawfulLattice.join_comm (α := Dynamic) (hbelow.trans hnewlast)
    apply StringMap.ext_get?
    intro k
    by_cases hk : k = key
    · subst hk
      unfold write
      rw [hlast]
      simp only [hjoin]
      exact StringMap.get?_put_self
    · exact get?_write_of_ne hk
  · rw [haccepts] at hverdict
    rcases write_cases later key value with ⟨htrue, _⟩ | ⟨_, hsame, _⟩
    · cases htrue.symm.trans hverdict
    · exact hsame

/-! ## Many writes -/

/-- The stored map after a list of writes, one at a time. -/
def fold (stored : StringMap Dynamic) (writes : List (String × Dynamic)) : StringMap Dynamic :=
  writes.foldl (fun m w => write m w.1 w.2) stored

theorem fold_cons {w : String × Dynamic} :
    fold stored (w :: writes) = fold (write stored w.1 w.2) writes := rfl

theorem fold_append {others : List (String × Dynamic)} :
    fold stored (writes ++ others) = fold (fold stored writes) others :=
  List.foldl_append

theorem below_fold : Lattice.Below stored (fold stored writes) := by
  induction writes generalizing stored with
  | nil => exact Lattice.below_refl stored
  | cons w writes ih => exact below_write.trans ih

/-- Folding the same writes onto a map that has grown since changes nothing. -/
theorem fold_of_below (h : Lattice.Below (fold stored writes) later) :
    fold later writes = later := by
  induction writes generalizing stored with
  | nil => rfl
  | cons w writes ih =>
      have hw : Lattice.Below (write stored w.1 w.2) later := below_fold.trans h
      rw [fold_cons, write_of_below hw]
      exact ih h

/-- Nor does any single one of them change it. -/
theorem write_of_mem (h : Lattice.Below (fold stored writes) later) {w : String × Dynamic}
    (hw : w ∈ writes) : write later w.1 w.2 = later := by
  induction writes generalizing stored with
  | nil => cases hw
  | cons first writes ih =>
      rcases List.mem_cons.1 hw with rfl | hw
      · exact write_of_below (below_fold.trans h)
      · exact ih h hw

/-- If the collected values over the stored map are a map, then they are so after a write to it. -/
theorem get?_write_mergeWrite {merged current : StringMap Dynamic}
    (h : ∀ k, current.get? k = (merged.get? k).or (stored.get? k)) (w : String × Dynamic)
    (k : String) : (write current w.1 w.2).get? k =
      ((mergeWrite stored merged w).get? k).or (stored.get? k) := by
  unfold mergeWrite
  rw [← h w.1]
  by_cases hk : k = w.1
  · subst hk
    rw [get?_write_self, StringMap.get?_put_self]
    rfl
  · rw [get?_write_of_ne hk, StringMap.get?_put_of_ne hk]
    exact h k

/-- The collected values of the touched keys, over the stored map, are what folding gives. -/
theorem get?_fold : (fold stored writes).get? k =
    ((mergeCompatible stored writes).get? k).or (stored.get? k) := by
  -- the collection is compared with the fold after every write, not only after the last one
  have hstep : ∀ merged current : StringMap Dynamic,
      (∀ k, current.get? k = (merged.get? k).or (stored.get? k)) →
      (fold current writes).get? k =
        ((writes.foldl (mergeWrite stored) merged).get? k).or (stored.get? k) := by
    induction writes with
    | nil => exact fun merged current h => h k
    | cons w writes ih => exact fun merged current h => ih _ _ (get?_write_mergeWrite h w)
  exact hstep .empty stored fun k => rfl

/-- Merging the collected values into the stored map gives what folding gives. -/
theorem join_mergeCompatible :
    stored.join (mergeCompatible stored writes) = .ok (fold stored writes) := by
  apply StringMap.join_eq_ok.2
  intro k
  have hfold : (fold stored writes).get? k = _ := get?_fold
  cases hnew : (mergeCompatible stored writes).get? k with
  | none =>
      rw [hnew] at hfold
      rw [hfold]
      exact joinOption_none_right
  | some new =>
      rw [hnew] at hfold
      rw [hfold]
      cases hold : stored.get? k with
      | none => rfl
      | some old =>
          -- what is collected has absorbed the old value already
          obtain ⟨last, hlast, hbelow⟩ := StringMap.below_iff.1 below_fold k old hold
          obtain rfl : new = last := Option.some.inj (hfold.symm.trans hlast)
          exact joinOption_some_eq_ok.2 ⟨new, hbelow, rfl⟩

/-- If nothing is collected, then folding changes nothing. -/
theorem fold_of_isEmpty (h : (mergeCompatible stored writes).isEmpty) :
    fold stored writes = stored := by
  apply StringMap.ext_get?
  intro k
  have hnone : (mergeCompatible stored writes).get? k = none := by
    unfold StringMap.get?
    rw [List.isEmpty_iff.1 h]
    rfl
  rw [get?_fold, hnone]
  rfl

/-! ## Puts and their answers -/

/-- Puts folded onto the stored map one at a time, with the answer to each of them. -/
def foldPuts (here : String) : StringMap Dynamic → List Put → StringMap Dynamic × List PutReply
  | stored, [] => (stored, [])
  | stored, put :: puts =>
    let reply : PutReply :=
      ⟨put.requestId, put.clientAddr, here, accepts stored put.key put.value⟩
    let rest := foldPuts here (write stored put.key put.value) puts
    (rest.1, reply :: rest.2)

variable {here : String} {puts : List Put}

theorem foldPuts_fst :
    (foldPuts here stored puts).1 = fold stored (puts.map fun put => (put.key, put.value)) := by
  induction puts generalizing stored with
  | nil => rfl
  | cons put puts ih => exact ih

/-- The answers to the puts of a fold can be read off any map above its result. -/
theorem foldPuts_snd (h : Lattice.Below (foldPuts here stored puts).1 later) :
    (foldPuts here stored puts).2 = puts.map fun put =>
      ⟨put.requestId, put.clientAddr, here, accepts later put.key put.value⟩ := by
  induction puts generalizing stored with
  | nil => rfl
  | cons put puts ih =>
      have hput : Lattice.Below (write stored put.key put.value) later := by
        rw [foldPuts_fst] at h
        exact below_fold.trans h
      rw [List.map_cons, accepts_of_below hput, ← ih h]
      rfl

end Ratchet.KeyValue
