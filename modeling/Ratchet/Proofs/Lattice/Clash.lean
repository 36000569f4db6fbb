import Ratchet.Proofs.Lattice.Path

/-!
# Clashes and where they are

Two values clash at a path that leads to values of different kinds in them.  A path leads on through
maps only, so nothing lies below a clash, and the order of the paths as lists of keys is the order
in which a walk through both values comes upon the clashes: depth first, the keys of each map
ascending.

Checking two values goes through the keys of one map after the other.  It finds nothing just if
there is no clash at any path (`conflict?_eq_none_iff_compatible`), and what it finds is the clash
at the first path (`firstClash_of_conflict?`).

Without a clash the two values have a join, and `joinsLeaves_of_join` says what that is path by
path: where only one of the two has a value, the join has that one, and where both have one, the
join has the join of the two if they are leaves and a map if they are maps.
-/

namespace Ratchet.Dynamic

open Ratchet.Lattice

variable {a b c : Dynamic} {m n r : StringMap Dynamic} {key : String} {path : List String}
  {conflict : Mismatch}

@[simp] theorem at?_nil : a.at? [] = some a := rfl

@[simp] theorem at?_ofMap_cons :
    (ofMap m).at? (key :: path) = (m.get? key).bind fun inner => inner.at? path := by
  rw [at?, view_eq_map.2 rfl]
  cases hinner : m.get? key <;> simp only [hinner, Option.bind_none, Option.bind_some]

/-- No path leads on from a value that is not a map. -/
theorem at?_cons_of_kind (h : a.kind ≠ .map) : a.at? (key :: path) = none := by
  cases hat : a.at? (key :: path) with
  | none => rfl
  | some x =>
      obtain ⟨m, _, rfl, _⟩ := at?_cons.1 hat
      exact absurd rfl h

/-! ## Clashes -/

/-- Both values have the path, and it leads to values of different kinds. -/
def ClashesAt (a b : Dynamic) (path : List String) (conflict : Mismatch) : Prop :=
  ∃ x y, a.at? path = some x ∧ b.at? path = some y ∧ x.kind ≠ y.kind ∧
    conflict = ⟨x.kind, y.kind⟩

/-- No path that both values have leads to values of different kinds. -/
def Compatible (a b : Dynamic) : Prop :=
  ∀ path x y, a.at? path = some x → b.at? path = some y → x.kind = y.kind

/-- The conflict is the one at the first path where the two values clash. -/
def FirstClash (a b : Dynamic) (conflict : Mismatch) : Prop :=
  ∃ path, ClashesAt a b path conflict ∧
    ∀ other c, ClashesAt a b other c → (compare path other).isLE

theorem clashesAt_nil :
    ClashesAt a b [] conflict ↔ a.kind ≠ b.kind ∧ conflict = ⟨a.kind, b.kind⟩ := by
  simp [ClashesAt]

theorem clashesAt_cons : ClashesAt (ofMap m) (ofMap n) (key :: path) conflict ↔
    ∃ x y, m.get? key = some x ∧ n.get? key = some y ∧ ClashesAt x y path conflict := by
  simp only [ClashesAt, at?_ofMap_cons, Option.bind_eq_some_iff]
  constructor
  · rintro ⟨x', y', ⟨x, hx, hx'⟩, ⟨y, hy, hy'⟩, hkind, heq⟩
    exact ⟨x, y, hx, hy, x', y', hx', hy', hkind, heq⟩
  · rintro ⟨x, y, hx, hy, x', y', hx', hy', hkind, heq⟩
    exact ⟨x', y', ⟨x, hx, hx'⟩, ⟨y, hy, hy'⟩, hkind, heq⟩

theorem not_compatible_of_clashesAt (h : ClashesAt a b path conflict) : ¬ a.Compatible b := by
  obtain ⟨x, y, hx, hy, hkind, _⟩ := h
  exact fun hab => hkind (hab path x y hx hy)

theorem compatible_of_leaf (hleaf : a.kind ≠ .map) (hkind : a.kind = b.kind) : a.Compatible b := by
  intro path x y hx hy
  cases path with
  | nil =>
      obtain rfl := Option.some.inj hx
      obtain rfl := Option.some.inj hy
      exact hkind
  | cons key path =>
      rw [at?_cons_of_kind hleaf] at hx
      cases hx

theorem compatible_ofMap : (ofMap m).Compatible (ofMap n) ↔
    ∀ k x y, m.get? k = some x → n.get? k = some y → x.Compatible y := by
  constructor
  · intro h k x y hx hy path x' y' hx' hy'
    refine h (k :: path) x' y' ?_ ?_
    · rw [at?_ofMap_cons, hx]
      exact hx'
    · rw [at?_ofMap_cons, hy]
      exact hy'
  · intro h path x y hx hy
    cases path with
    | nil =>
        obtain rfl := Option.some.inj hx
        obtain rfl := Option.some.inj hy
        rfl
    | cons k path =>
        rw [at?_ofMap_cons, Option.bind_eq_some_iff] at hx hy
        obtain ⟨x', hx', hx⟩ := hx
        obtain ⟨y', hy', hy⟩ := hy
        exact h k x' y' hx' hy' path x y hx hy

/-- Checking finds no conflict just if there is no clash at any path. -/
theorem conflict?_eq_none_iff_compatible : a.conflict? b = none ↔ a.Compatible b := by
  induction a using map_induction generalizing b with
  | leaf a hleaf =>
      by_cases hkind : a.kind = b.kind
      · have hnone : a.conflict? b = none :=
          conflict?_eq_none_iff.2 (exists_join_of_kind_eq hkind hleaf)
        exact ⟨fun _ => compatible_of_leaf hleaf hkind, fun _ => hnone⟩
      · rw [conflict?_of_kind_ne hkind]
        exact ⟨nofun, fun h => absurd (h [] a b rfl rfl) hkind⟩
  | map m ih =>
      by_cases hkind : (ofMap m).kind = b.kind
      · obtain ⟨n, rfl⟩ := exists_eq_ofMap_of_kind hkind.symm
        rw [conflict?_ofMap, compatible_ofMap]
        exact ⟨fun h k x y hx hy => (ih k x hx).1 (h k x y hx hy),
          fun h k x y hx hy => (ih k x hx).2 (h k x y hx hy)⟩
      · rw [conflict?_of_kind_ne hkind]
        exact ⟨nofun, fun h => absurd (h [] (ofMap m) b rfl rfl) hkind⟩

/-- Values of different kinds clash before anything else does. -/
theorem firstClash_of_kind_ne (h : a.kind ≠ b.kind) : FirstClash a b ⟨a.kind, b.kind⟩ := by
  refine ⟨[], clashesAt_nil.2 ⟨h, rfl⟩, ?_⟩
  intro other _ _
  cases other <;> rfl

/-- What checking finds is the first clash. -/
theorem firstClash_of_conflict? (h : a.conflict? b = some conflict) : FirstClash a b conflict := by
  induction a using map_induction generalizing b conflict with
  | leaf a hleaf =>
      by_cases hkind : a.kind = b.kind
      · rw [conflict?_eq_none_iff_compatible.2 (compatible_of_leaf hleaf hkind)] at h
        cases h
      · obtain rfl := Option.some.inj ((conflict?_of_kind_ne hkind).symm.trans h)
        exact firstClash_of_kind_ne hkind
  | map m ih =>
      by_cases hkind : (ofMap m).kind = b.kind
      · obtain ⟨n, rfl⟩ := exists_eq_ofMap_of_kind hkind.symm
        obtain ⟨k, x, y, hx, hy, hxy, hbefore⟩ := firstConflict_of_conflict? h
        obtain ⟨path, hpath, hfirst⟩ := ih k x hx hxy
        refine ⟨k :: path, clashesAt_cons.2 ⟨x, y, hx, hy, hpath⟩, ?_⟩
        intro other c hother
        cases other with
        | nil => exact absurd rfl (clashesAt_nil.1 hother).1
        | cons j other =>
            obtain ⟨x', y', hx', hy', hother⟩ := clashesAt_cons.1 hother
            rw [List.compare_cons_cons, Ordering.isLE_then_iff_and]
            cases hkj : compare k j with
            | lt => exact ⟨rfl, .inl rfl⟩
            | eq =>
                obtain rfl := Element.eq_iff.1 hkj
                obtain rfl := Option.some.inj (hx.symm.trans hx')
                obtain rfl := Option.some.inj (hy.symm.trans hy')
                exact ⟨rfl, .inr (hfirst other c hother)⟩
            | gt =>
                -- a clash below an earlier key would have been found there
                have hnone : x'.conflict? y' = none := by
                  cases hcheck : x'.conflict? y' with
                  | none => rfl
                  | some d =>
                      exact absurd hcheck (hbefore j x' y' (Element.gt_iff_lt.1 hkj) hx' hy' d)
                exact absurd (conflict?_eq_none_iff_compatible.1 hnone)
                  (not_compatible_of_clashesAt hother)
      · obtain rfl := Option.some.inj ((conflict?_of_kind_ne hkind).symm.trans h)
        exact firstClash_of_kind_ne hkind

/-! ## Joins, leaf by leaf -/

/-- The third value has what the join of the first two has at its root: a leaf is the join of their
leaves, as the leaves of their kind are joined, and a map is just a map. -/
inductive JoinsRoot : Dynamic → Dynamic → Dynamic → Prop
  | set (s t : GrowSet String) : JoinsRoot (ofSet s) (ofSet t) (ofSet (s.union t))
  | maxInt (i j : MaxInt) : JoinsRoot (ofMaxInt i) (ofMaxInt j) (ofMaxInt (i.join j))
  | maxText (s t : MaxText) : JoinsRoot (ofMaxText s) (ofMaxText t) (ofMaxText (s.join t))
  | flag (f g : Flag) : JoinsRoot (ofFlag f) (ofFlag g) (ofFlag (f.join g))
  | map (m n r : StringMap Dynamic) : JoinsRoot (ofMap m) (ofMap n) (ofMap r)

/-- What a path leads to in a join: what it leads to in the side that has it, or the join of what
it leads to in both. -/
inductive JoinsAt : Option Dynamic → Option Dynamic → Option Dynamic → Prop
  | left (x : Option Dynamic) : JoinsAt x none x
  | right (y : Option Dynamic) : JoinsAt none y y
  | both {x y z : Dynamic} (h : JoinsRoot x y z) : JoinsAt (some x) (some y) (some z)

/-- The third value is the join of the first two, path by path. -/
def JoinsLeaves (a b c : Dynamic) : Prop :=
  ∀ path, JoinsAt (a.at? path) (b.at? path) (c.at? path)

theorem JoinsLeaves.of_leaf (ha : a.kind ≠ .map) (hb : b.kind ≠ .map) (hc : c.kind ≠ .map)
    (h : JoinsRoot a b c) : JoinsLeaves a b c := by
  intro path
  cases path with
  | nil => exact .both h
  | cons key path =>
      rw [at?_cons_of_kind ha, at?_cons_of_kind hb, at?_cons_of_kind hc]
      exact .left none

/-- Maps that are joined key by key are joined path by path, if that holds of the values at the
keys that both have. -/
theorem JoinsLeaves.of_join (h : m.join n = .ok r)
    (law : ∀ k x y z, m.get? k = some x → n.get? k = some y → x.join y = .ok z →
      JoinsLeaves x y z) : JoinsLeaves (ofMap m) (ofMap n) (ofMap r) := by
  intro path
  cases path with
  | nil => exact .both (.map m n r)
  | cons k path =>
      have hk := StringMap.join_eq_ok.1 h k
      rw [at?_ofMap_cons, at?_ofMap_cons, at?_ofMap_cons]
      cases hx : m.get? k with
      | none =>
          rw [hx] at hk
          rw [← Except.ok.inj hk]
          exact .right _
      | some x =>
          cases hy : n.get? k with
          | none =>
              rw [hx, hy] at hk
              rw [← Except.ok.inj hk]
              exact .left _
          | some y =>
              rw [hx, hy] at hk
              obtain ⟨z, hz, heq⟩ := joinOption_some_eq_ok.1 hk
              rw [heq]
              exact law k x y z hx hy hz path

/-- What joining gives is the join path by path. -/
theorem joinsLeaves_of_join (h : a.join b = .ok c) : JoinsLeaves a b c := by
  induction a using Dynamic.induction generalizing b c with
  | set s =>
      obtain ⟨t, _, rfl, ⟨⟩, rfl⟩ := embeds_ofSet.join_eq_ok.1 h
      exact .of_leaf nofun nofun nofun (.set s t)
  | maxInt i =>
      obtain ⟨j, _, rfl, ⟨⟩, rfl⟩ := embeds_ofMaxInt.join_eq_ok.1 h
      exact .of_leaf nofun nofun nofun (.maxInt i j)
  | maxText s =>
      obtain ⟨t, _, rfl, ⟨⟩, rfl⟩ := embeds_ofMaxText.join_eq_ok.1 h
      exact .of_leaf nofun nofun nofun (.maxText s t)
  | flag f =>
      obtain ⟨g, _, rfl, ⟨⟩, rfl⟩ := embeds_ofFlag.join_eq_ok.1 h
      exact .of_leaf nofun nofun nofun (.flag f g)
  | map m ih =>
      obtain ⟨n, r, rfl, hjoin, rfl⟩ := embeds_ofMap.join_eq_ok.1 h
      exact .of_join hjoin fun k x _ _ hx _ hz => ih k x hx hz

end Ratchet.Dynamic
