import Ratchet.Lattice.Dynamic.Tree

/-!
# Dynamically typed lattice values

A `Dynamic` is a lattice value whose kind is only known when it arrives, such as the value that a
client puts under a key of a store.  It is a canonical tree, so equal values are equal as data.

Values of one kind join like that kind does, maps at every key that both hold.  Values of
different kinds have no join, and a conflict anywhere inside two maps leaves the maps without one.

## Main definitions

* `Dynamic.conflict?`, `Dynamic.merge`, `Dynamic.join`: joining, and why it may be impossible.
* `Dynamic.View`: a value taken apart by kind.
-/

namespace Ratchet

/-- A lattice value of any kind. -/
structure Dynamic where
  tree : Tree
  /-- The maps in the tree list their keys in order. -/
  canonical : tree.Canonical

namespace Dynamic

/-- Values compare by kind first and by content second. -/
instance : Element Dynamic :=
  Element.ofKey tree fun ⟨_, _⟩ ⟨_, _⟩ h => by subst h; rfl

/-- The kind of a value. -/
def kind (a : Dynamic) : Kind := a.tree.kind

/-! ## Joining -/

/-- The conflict that keeps `b` from being merged into `a`, if there is one. -/
def conflict? (a b : Dynamic) : Option Mismatch := a.tree.conflict? b.tree

/-- The value `a` after `b` is merged into it, and whether it grew. -/
def merge (a b : Dynamic) : Except Mismatch (Dynamic × Bool) :=
  match h : a.tree.merge b.tree with
  | .ok result => .ok (⟨result.1, Tree.canonical_merge a.canonical b.canonical h⟩, result.2)
  | .error conflict => .error conflict

/-- The least value above `a` and `b`. -/
def join (a b : Dynamic) : Except Mismatch Dynamic :=
  match h : a.tree.join b.tree with
  | .ok t => .ok ⟨t, Tree.canonical_join a.canonical b.canonical h⟩
  | .error conflict => .error conflict

instance : Lattice Dynamic where
  join := join
  merge := merge

/-! ## Values by kind -/

/-- A set as a value. -/
def ofSet (s : GrowSet String) : Dynamic := ⟨.set s, trivial⟩

/-- An integer register as a value. -/
def ofMaxInt (m : MaxInt) : Dynamic := ⟨.maxInt m, trivial⟩

/-- A text register as a value. -/
def ofMaxText (m : MaxText) : Dynamic := ⟨.maxText m, trivial⟩

/-- A flag as a value. -/
def ofFlag (b : Flag) : Dynamic := ⟨.flag b, trivial⟩

/-- A map of values as a value. -/
def ofMap (m : StringMap Dynamic) : Dynamic where
  tree := .map (m.entries.map fun e => (e.1, e.2.tree))
  canonical := by
    simp only [Tree.Canonical]
    refine ⟨List.pairwise_map.2 m.ascending, Tree.canonicalEntries_iff.2 fun e he => ?_⟩
    obtain ⟨f, _, rfl⟩ := List.mem_map.1 he
    exact f.2.canonical

/-- Canonical entries as entries of values. -/
def ofEntries : (es : List (String × Tree)) → Tree.CanonicalEntries es → List (String × Dynamic)
  | [], _ => []
  | (key, t) :: es, h =>
    have h : t.Canonical ∧ Tree.CanonicalEntries es := by
      simpa only [Tree.CanonicalEntries] using h
    (key, ⟨t, h.1⟩) :: ofEntries es h.2

/-- Entries of values have the keys of the entries that they come from. -/
theorem map_key_ofEntries (es : List (String × Tree)) (h : Tree.CanonicalEntries es) :
    (ofEntries es h).map Prod.fst = es.map Prod.fst := by
  induction es with
  | nil => rfl
  | cons e es ih => simp [ofEntries, ih]

/-- A value taken apart by its kind. -/
inductive View where
  | set (members : GrowSet String)
  | map (entries : StringMap Dynamic)
  | maxInt (register : MaxInt)
  | maxText (register : MaxText)
  | flag (flag : Flag)

/-- Takes a value apart by its kind. -/
def view : Dynamic → View
  | ⟨.set s, _⟩ => .set s
  | ⟨.map es, h⟩ =>
    have h : AscendingKeys es ∧ Tree.CanonicalEntries es := by
      simpa only [Tree.Canonical] using h
    .map ⟨ofEntries es h.2, List.pairwise_map.1 (by
      rw [map_key_ofEntries es h.2]
      exact List.pairwise_map.2 h.1 :
        ((ofEntries es h.2).map Prod.fst).Pairwise fun k l => compare k l = .lt)⟩
  | ⟨.maxInt m, _⟩ => .maxInt m
  | ⟨.maxText m, _⟩ => .maxText m
  | ⟨.flag b, _⟩ => .flag b

end Dynamic

end Ratchet
