import Ratchet.Lattice.GrowSet
import Ratchet.Lattice.Register
import Ratchet.Lattice.StringMap

/-!
# Trees of lattice values

A tree is a lattice value of any kind, a map holding further trees.  Two trees can be joined when
no path through maps that both hold leads to values of different kinds.

## Main definitions

* `Tree.conflict?`: the first conflict between two trees, in the order of their paths.
* `Tree.merge`, `Tree.join`: merging with a growth signal, and the join leaf by leaf.
* `Tree.compare`: the structural order, by kind first and by content second.
* `Tree.Canonical`: every map in the tree has ascending keys.
-/

namespace Ratchet

/-- A lattice value of any kind; a map holds further values under text keys. -/
inductive Tree where
  | set (members : GrowSet String)
  | map (entries : List (String × Tree))
  | maxInt (register : MaxInt)
  | maxText (register : MaxText)
  | flag (flag : Flag)

namespace Tree

/-- The kind of lattice that a tree belongs to. -/
def kind : Tree → Kind
  | set _ => .set
  | map _ => .map
  | maxInt _ => .maxInt
  | maxText _ => .maxText
  | flag _ => .flag

/-! ## Joining -/

mutual

/-- The first conflict that merging the second tree into the first would meet. -/
def conflict? : Tree → Tree → Option Mismatch
  | map es, map fs => conflictEntries? es fs
  | set _, set _ | maxInt _, maxInt _ | maxText _, maxText _ | flag _, flag _ => none
  | t, u => some ⟨t.kind, u.kind⟩

/-- The first conflict at a key that both lists of entries hold. -/
def conflictEntries? : List (String × Tree) → List (String × Tree) → Option Mismatch
  | _, [] => none
  | es, (key, found) :: fs =>
    match (es.lookup key).bind fun value => conflict? value found with
    | some conflict => some conflict
    | none => conflictEntries? es fs

end

mutual

/-- Merges the second tree into the first, after checking that nothing in them conflicts. -/
def merge : Tree → Tree → Except Mismatch (Tree × Bool)
  | set s, set t => .ok (set (s.merge t).1, (s.merge t).2)
  | map es, map fs =>
    match conflictEntries? es fs with
    | some conflict => .error conflict
    | none => do
      let (merged, grew) ← mergeEntries es fs
      return (map merged, grew)
  | maxInt m, maxInt n => .ok (maxInt (m.add n.value).1, (m.add n.value).2)
  | maxText m, maxText n => .ok (maxText (m.add n.value).1, (m.add n.value).2)
  | flag b, flag c => .ok (flag (b.add c.value).1, (b.add c.value).2)
  | t, u => .error ⟨t.kind, u.kind⟩

/-- Merges a list of entries into an ascending list, one after the other. -/
def mergeEntries : List (String × Tree) → List (String × Tree) →
    Except Mismatch (List (String × Tree) × Bool)
  | es, [] => .ok (es, false)
  | es, (key, value) :: fs => do
    let (grown, grew) ← StringMap.growEntry key value (fun old => merge old value) es
    let (result, more) ← mergeEntries grown fs
    return (result, grew || more)

end

mutual

/-- The join of two trees, taken leaf by leaf. -/
def join : Tree → Tree → Except Mismatch Tree
  | set s, set t => .ok (set (s.union t))
  | map es, map fs => do return map (← joinEntries es fs)
  | maxInt m, maxInt n => .ok (maxInt (m.join n))
  | maxText m, maxText n => .ok (maxText (m.join n))
  | flag b, flag c => .ok (flag (b.join c))
  | t, u => .error ⟨t.kind, u.kind⟩

/-- Interleaves two ascending lists of entries, joining the trees of shared keys. -/
def joinEntries : List (String × Tree) → List (String × Tree) →
    Except Mismatch (List (String × Tree))
  | [], fs => .ok fs
  | (key, value) :: es, fs => do
    let joined ← StringMap.joinFound (fun found => join value found) value (fs.lookup key)
    let rest ← joinEntries es (fs.dropWhile fun f => Ord.compare f.1 key != .gt)
    return fs.takeWhile (fun f => Ord.compare f.1 key == .lt) ++ (key, joined) :: rest

end

/-- On trees, merging entries is merging entries of the lattice of trees. -/
theorem mergeEntries_eq (es fs : List (String × Tree)) :
    mergeEntries es fs = StringMap.mergeEntries merge es fs := by
  induction fs generalizing es with
  | nil => rfl
  | cons f fs ih => simp only [mergeEntries, StringMap.mergeEntries, ih]

/-- On trees, joining entries is joining entries of the lattice of trees. -/
theorem joinEntries_eq (es fs : List (String × Tree)) :
    joinEntries es fs = StringMap.joinEntries join es fs := by
  induction es generalizing fs with
  | nil => rfl
  | cons e es ih => simp only [joinEntries, StringMap.joinEntries, ih]

/-! ## The structural order -/

mutual

/-- Trees compare by kind first and by content second. -/
protected def compare : Tree → Tree → Ordering
  | set s, set t => Ord.compare s t
  | map es, map fs => compareEntries es fs
  | maxInt m, maxInt n => Ord.compare m n
  | maxText m, maxText n => Ord.compare m n
  | flag b, flag c => Ord.compare b c
  | t, u => Ord.compare t.kind.rank u.kind.rank

/-- Entries compare at the first position where they differ, by key first. -/
def compareEntries : List (String × Tree) → List (String × Tree) → Ordering
  | [], [] => .eq
  | [], _ :: _ => .lt
  | _ :: _, [] => .gt
  | (key, value) :: es, (other, found) :: fs =>
    (Ord.compare key other).then ((Tree.compare value found).then (compareEntries es fs))

end

instance : Ord Tree := ⟨Tree.compare⟩

open Std

mutual

private theorem compare_swap : ∀ t u : Tree, Tree.compare t u = (Tree.compare u t).swap
  | set s, set t => OrientedOrd.eq_swap
  | map es, map fs => by
      simp only [Tree.compare]
      exact compareEntries_swap es fs
  | maxInt m, maxInt n => OrientedOrd.eq_swap
  | maxText m, maxText n => OrientedOrd.eq_swap
  | flag b, flag c => OrientedOrd.eq_swap
  | set _, map _ | set _, maxInt _ | set _, maxText _ | set _, flag _
  | map _, set _ | map _, maxInt _ | map _, maxText _ | map _, flag _
  | maxInt _, set _ | maxInt _, map _ | maxInt _, maxText _ | maxInt _, flag _
  | maxText _, set _ | maxText _, map _ | maxText _, maxInt _ | maxText _, flag _
  | flag _, set _ | flag _, map _ | flag _, maxInt _ | flag _, maxText _ => rfl

private theorem compareEntries_swap : ∀ es fs : List (String × Tree),
    compareEntries es fs = (compareEntries fs es).swap
  | [], [] => rfl
  | [], _ :: _ => rfl
  | _ :: _, [] => rfl
  | (key, value) :: es, (other, found) :: fs => by
      simp only [compareEntries, Ordering.swap_then]
      rw [← compare_swap value found, ← compareEntries_swap es fs,
        ← OrientedOrd.eq_swap (α := String)]

end

mutual

private theorem eq_of_compare : ∀ t u : Tree, Tree.compare t u = .eq → t = u
  | set s, set t => fun h => congrArg set (LawfulEqOrd.eq_of_compare h)
  | map es, map fs => fun h => by
      simp only [Tree.compare] at h
      exact congrArg map (eq_of_compareEntries es fs h)
  | maxInt m, maxInt n => fun h => congrArg maxInt (LawfulEqOrd.eq_of_compare h)
  | maxText m, maxText n => fun h => congrArg maxText (LawfulEqOrd.eq_of_compare h)
  | flag b, flag c => fun h => congrArg flag (LawfulEqOrd.eq_of_compare h)
  | set _, map _ | set _, maxInt _ | set _, maxText _ | set _, flag _
  | map _, set _ | map _, maxInt _ | map _, maxText _ | map _, flag _
  | maxInt _, set _ | maxInt _, map _ | maxInt _, maxText _ | maxInt _, flag _
  | maxText _, set _ | maxText _, map _ | maxText _, maxInt _ | maxText _, flag _
  | flag _, set _ | flag _, map _ | flag _, maxInt _ | flag _, maxText _ =>
    fun h => by simp [Tree.compare, kind, Kind.rank, Ord.compare, compareOfLessAndEq] at h

private theorem eq_of_compareEntries : ∀ es fs : List (String × Tree),
    compareEntries es fs = .eq → es = fs
  | [], [] => fun _ => rfl
  | [], _ :: _ => fun h => by simp [compareEntries] at h
  | _ :: _, [] => fun h => by simp [compareEntries] at h
  | (key, value) :: es, (other, found) :: fs => fun h => by
      simp only [compareEntries, Ordering.then_eq_eq] at h
      rw [LawfulEqOrd.eq_of_compare h.1, eq_of_compare value found h.2.1,
        eq_of_compareEntries es fs h.2.2]

end

/-- A chain of two comparisons that do not descend: the ends compare like the first step, and
like the second one if the first is level. -/
private abbrev Chains (first second ends : Ordering) : Prop :=
  first.isLE → second.isLE → ends = first.then second

private theorem chains_compare {α : Type} [Ord α] [TransOrd α] {a b c : α} :
    Chains (Ord.compare a b) (Ord.compare b c) (Ord.compare a c) := by
  intro hab hbc
  cases h : Ord.compare a b with
  | lt => exact TransCmp.lt_of_lt_of_isLE h hbc
  | eq => exact TransCmp.congr_left h
  | gt => rw [h] at hab; cases hab

private theorem Chains.lex {x y z x' y' z' : Ordering} (head : Chains x y z)
    (tail : x = .eq → y = .eq → Chains x' y' z') : Chains (x.then x') (y.then y') (z.then z') := by
  cases x <;> cases y <;> cases x' <;> cases y' <;> simp_all [Chains]

private theorem compare_eq_rank_then (t u : Tree) :
    Tree.compare t u = (Ord.compare t.kind.rank u.kind.rank).then (Tree.compare t u) := by
  cases t <;> cases u <;> rfl

private theorem chains_of_kind_ne {t u v : Tree} (h : t.kind ≠ u.kind ∨ u.kind ≠ v.kind) :
    Chains (Tree.compare t u) (Tree.compare u v) (Tree.compare t v) := by
  rw [compare_eq_rank_then t u, compare_eq_rank_then u v, compare_eq_rank_then t v]
  refine chains_compare.lex fun htu huv => ?_
  have htu := Kind.rank_injective (LawfulEqOrd.eq_of_compare htu)
  have huv := Kind.rank_injective (LawfulEqOrd.eq_of_compare huv)
  exact (h.elim (absurd htu) (absurd huv))

mutual

private theorem chains_tree (t u v : Tree) :
    Chains (Tree.compare t u) (Tree.compare u v) (Tree.compare t v) := by
  cases t <;> cases u <;> cases v
  case map.map.map es fs gs => simpa only [Tree.compare] using chains_entries es fs gs
  case set.set.set => exact chains_compare
  case maxInt.maxInt.maxInt => exact chains_compare
  case maxText.maxText.maxText => exact chains_compare
  case flag.flag.flag => exact chains_compare
  all_goals exact chains_of_kind_ne (by simp [kind])

private theorem chains_entries : ∀ es fs gs : List (String × Tree),
    Chains (compareEntries es fs) (compareEntries fs gs) (compareEntries es gs)
  | [], [], gs => fun _ _ => rfl
  | [], _ :: _, [] => fun _ h => by simp [compareEntries] at h
  | [], _ :: _, _ :: _ => fun _ _ => rfl
  | _ :: _, [], _ => fun h => by simp [compareEntries] at h
  | _ :: _, _ :: _, [] => fun _ h => by simp [compareEntries] at h
  | (_, t) :: es, (_, u) :: fs, (_, v) :: gs => by
      simp only [compareEntries]
      exact chains_compare.lex fun _ _ => (chains_tree t u v).lex fun _ _ => chains_entries es fs gs

end

private theorem compare_self (t : Tree) : Tree.compare t t = .eq := by
  have hswap := compare_swap t t
  generalize Tree.compare t t = o at hswap
  cases o
  · cases hswap
  · rfl
  · cases hswap

/-- The structural order is a total order consistent with equality. -/
instance : Element Tree where
  decEq t u := decidable_of_iff (Tree.compare t u = .eq)
    ⟨eq_of_compare t u, fun h => h ▸ compare_self t⟩
  trans := {
    eq_swap := compare_swap _ _
    isLE_trans := fun {t u v} htu huv => by
      have hends : Tree.compare t v = (Tree.compare t u).then (Tree.compare u v) :=
        chains_tree t u v htu huv
      change (Tree.compare t v).isLE
      rw [hends, Ordering.isLE_then_iff_and]
      exact ⟨htu, .inr huv⟩ }
  lawful := {
    compare_self := compare_self _
    eq_of_compare := eq_of_compare _ _ }

/-! ## Canonical trees -/

mutual

/-- Every map in the tree lists its keys in strictly ascending order. -/
def Canonical : Tree → Prop
  | map es => AscendingKeys es ∧ CanonicalEntries es
  | _ => True

/-- Every tree in a list of entries is canonical. -/
def CanonicalEntries : List (String × Tree) → Prop
  | [] => True
  | (_, t) :: es => Canonical t ∧ CanonicalEntries es

end

/-- Canonical entries are entries with canonical trees. -/
theorem canonicalEntries_iff {es : List (String × Tree)} :
    CanonicalEntries es ↔ ∀ e ∈ es, Canonical e.2 := by
  induction es with
  | nil => simp [CanonicalEntries]
  | cons e es ih => simp [CanonicalEntries, ih]

private theorem canonical_of_lookup {key : String} {value : Tree} {es : List (String × Tree)}
    (hes : CanonicalEntries es) (h : es.lookup key = some value) : Canonical value := by
  obtain ⟨before, after, rfl, _⟩ := List.lookup_eq_some_iff.1 h
  exact canonicalEntries_iff.1 hes (key, value) (by simp)

private theorem canonical_putEntry {key : String} {value : Tree} {es : List (String × Tree)}
    (hes : CanonicalEntries es) (hvalue : Canonical value) :
    CanonicalEntries (StringMap.putEntry key value es) := by
  refine canonicalEntries_iff.2 fun e he => ?_
  rcases StringMap.mem_putEntry he with rfl | he
  · exact hvalue
  · exact canonicalEntries_iff.1 hes e he

mutual

/-- Merging canonical trees gives a canonical tree. -/
theorem canonical_merge : ∀ {t u : Tree} {result : Tree × Bool}, Canonical t → Canonical u →
    merge t u = .ok result → Canonical result.1
  | map es, map fs, result => fun ht hu h => by
      simp only [Canonical] at ht hu
      simp only [merge] at h
      split at h
      · cases h
      · cases hmerge : mergeEntries es fs with
        | error conflict => rw [hmerge] at h; cases h
        | ok merged =>
            rw [hmerge] at h
            cases h
            simp only [Canonical]
            refine ⟨?_, canonical_mergeEntries ht.2 hu.2 hmerge⟩
            rw [mergeEntries_eq] at hmerge
            exact StringMap.ascending_mergeEntries ht.1 hmerge
  | set _, u, result => by
      cases u <;> intro _ _ h <;> cases h
      simp [Canonical]
  | maxInt _, u, result => by
      cases u <;> intro _ _ h <;> cases h
      simp [Canonical]
  | maxText _, u, result => by
      cases u <;> intro _ _ h <;> cases h
      simp [Canonical]
  | flag _, u, result => by
      cases u <;> intro _ _ h <;> cases h
      simp [Canonical]
  | map _, set _, result | map _, maxInt _, result | map _, maxText _, result
  | map _, flag _, result => fun _ _ h => by cases h

/-- Merging canonical entries gives canonical entries. -/
theorem canonical_mergeEntries : ∀ {es fs : List (String × Tree)}
    {result : List (String × Tree) × Bool}, CanonicalEntries es → CanonicalEntries fs →
    mergeEntries es fs = .ok result → CanonicalEntries result.1
  | es, [], result => fun hes _ h => by cases h; exact hes
  | es, (key, value) :: fs, result => fun hes hfs h => by
      simp only [CanonicalEntries] at hfs
      rw [mergeEntries_eq] at h
      obtain ⟨grown, rest, hgrow, hrest, rfl⟩ := StringMap.mergeEntries_cons h
      rw [← mergeEntries_eq] at hrest
      have hgrown : CanonicalEntries grown.1 := by
        rcases StringMap.growEntry_eq_ok hgrow with ⟨_, rfl⟩ | ⟨old, new, hold, hnew, rfl⟩
        · exact canonical_putEntry hes hfs.1
        · exact canonical_putEntry hes
            (canonical_merge (canonical_of_lookup hes hold) hfs.1 hnew)
      exact (canonical_mergeEntries hgrown hfs.2 hrest : CanonicalEntries rest.1)

end

mutual

/-- The join of canonical trees is canonical. -/
theorem canonical_join : ∀ {t u v : Tree}, Canonical t → Canonical u →
    join t u = .ok v → Canonical v
  | map es, map fs, v => fun ht hu h => by
      simp only [Canonical] at ht hu
      simp only [join] at h
      cases hjoin : joinEntries es fs with
      | error conflict => rw [hjoin] at h; cases h
      | ok joined =>
          rw [hjoin] at h
          cases h
          simp only [Canonical]
          refine ⟨?_, canonical_joinEntries ht.2 hu.2 hjoin⟩
          rw [joinEntries_eq] at hjoin
          exact StringMap.ascending_joinEntries ht.1 hu.1 hjoin
  | set _, u, v => by
      cases u <;> intro _ _ h <;> cases h
      simp [Canonical]
  | maxInt _, u, v => by
      cases u <;> intro _ _ h <;> cases h
      simp [Canonical]
  | maxText _, u, v => by
      cases u <;> intro _ _ h <;> cases h
      simp [Canonical]
  | flag _, u, v => by
      cases u <;> intro _ _ h <;> cases h
      simp [Canonical]
  | map _, set _, v | map _, maxInt _, v | map _, maxText _, v | map _, flag _, v =>
      fun _ _ h => by cases h

/-- Joining canonical entries gives canonical entries. -/
theorem canonical_joinEntries : ∀ {es fs gs : List (String × Tree)}, CanonicalEntries es →
    CanonicalEntries fs → joinEntries es fs = .ok gs → CanonicalEntries gs
  | [], fs, gs => fun _ hfs h => by cases h; exact hfs
  | (key, value) :: es, fs, gs => fun hes hfs h => by
      simp only [CanonicalEntries] at hes
      rw [joinEntries_eq] at h
      obtain ⟨joined, rest, hjoined, hrest, rfl⟩ := StringMap.joinEntries_cons h
      rw [← joinEntries_eq] at hrest
      have hdrop : CanonicalEntries (fs.dropWhile fun f => Ord.compare f.1 key != .gt) :=
        canonicalEntries_iff.2 fun e he =>
          canonicalEntries_iff.1 hfs e ((List.dropWhile_sublist _).subset he)
      have hvalue : Canonical joined := by
        cases hfound : fs.lookup key with
        | none =>
            rw [hfound] at hjoined
            cases hjoined
            exact hes.1
        | some found =>
            rw [hfound] at hjoined
            exact canonical_join hes.1 (canonical_of_lookup hfs hfound) hjoined
      have htail := canonical_joinEntries hes.2 hdrop hrest
      refine canonicalEntries_iff.2 fun e he => ?_
      rcases List.mem_append.1 he with he | he
      · exact canonicalEntries_iff.1 hfs e ((List.takeWhile_sublist _).subset he)
      · rcases List.mem_cons.1 he with rfl | he
        · exact hvalue
        · exact canonicalEntries_iff.1 htail e he

end

end Tree

end Ratchet
