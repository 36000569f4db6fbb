/-!
# Join semilattices with a growth signal

Every value that a program stores belongs to a join semilattice: two values can be joined, and
the join is the least value above both.  A few lattices are only partial, because values of
different kinds have no join; joining is therefore allowed to fail with a `Mismatch`.

A lattice offers joining in two forms.  `Lattice.join` computes the join.  `Lattice.merge` is the
form that a scheduler uses: it also reports whether the left value grew.

## Main definitions

* `Kind`, `Mismatch`: the kinds of lattices, and the conflict between two of them.
* `Lattice`: the two forms of joining.
* `Lattice.order`, `Lattice.leq`: the order that joining induces.
* `Relation`: a lattice whose values are built from single facts.
-/

namespace Ratchet

/-- The kinds of lattices that a stored value can have. -/
inductive Kind where
  | set
  | map
  | maxInt
  | maxText
  | flag
  deriving DecidableEq, Repr

namespace Kind

/-- The order in which the kinds are listed. -/
def rank : Kind → Nat
  | set => 0
  | map => 1
  | maxInt => 2
  | maxText => 3
  | flag => 4

/-- No two kinds share a place in the list. -/
theorem rank_injective {k l : Kind} (h : k.rank = l.rank) : k = l := by
  cases k <;> cases l <;> simp_all [rank]

/-- The word for a kind in messages. -/
def label : Kind → String
  | set => "set"
  | map => "map"
  | maxInt => "max-int"
  | maxText => "max-string"
  | flag => "bool"

end Kind

/-- Two values that cannot be joined: a value of kind `found` met one of kind `expected`. -/
structure Mismatch where
  expected : Kind
  /-- The kind of the value that was to be merged into it. -/
  found : Kind
  deriving DecidableEq, Repr

/-- The wording of a conflict. -/
def Mismatch.message (conflict : Mismatch) : String :=
  s!"Cannot merge a {conflict.found.label} lattice into a {conflict.expected.label} lattice"

/-- A join semilattice, possibly partial, with a growth signal. -/
class Lattice (α : Type) where
  join : α → α → Except Mismatch α
  /-- The left value after the right one is merged into it, and whether that made it grow. -/
  merge : α → α → Except Mismatch (α × Bool)

namespace Lattice

variable {α : Type} [DecidableEq α]

/-- Merging by means of a join alone: the value grew when the join differs from it. -/
def mergeOfJoin (join : α → α → Except Mismatch α) (a b : α) : Except Mismatch (α × Bool) := do
  let joined ← join a b
  return (joined, decide (joined ≠ a))

variable [Lattice α]

/-- How two values stand in the order that joining induces; `none` if neither is above the
other. -/
def order (a b : α) : Except Mismatch (Option Ordering) := do
  let joined ← join a b
  return if joined = a ∧ joined = b then some .eq
    else if joined = b then some .lt
    else if joined = a then some .gt
    else none

/-- Whether the second value is above the first or equal to it. -/
def leq (a b : α) : Except Mismatch Bool := do
  match ← order a b with
  | some .lt | some .eq => return true
  | _ => return false

end Lattice

/-- A lattice whose values are grown from single facts of type `T`. -/
class Relation (R : Type) (T : outParam Type) extends Lattice R where
  kind : Kind
  /-- The least value, which every relation starts from. -/
  bottom : R
  /-- The relation after one more fact, and whether that fact made it grow. -/
  add : R → T → Except Mismatch (R × Bool)
  /-- The facts that a relation consists of, in ascending order. -/
  tuples : R → List T
  /-- The relation that a list of facts describes on its own. -/
  collect : List T → Except Mismatch R

end Ratchet
