/-!
# Elements

A relation that holds many facts keeps them in ascending order, so that equal collections are
equal as data and every listing of them is reproducible.  `Element` is what a type of facts has
to offer for that: a comparison that is transitive, and that answers `eq` only for equal values.

## Main statements

* `Element.lt_trans`, `Element.lt_irrefl`, `Element.gt_iff_lt`: the comparison is a strict order.
* `Element.ofKey`: a type inherits the order of an injective key.
-/

namespace Ratchet

open Std

/-- A type of facts: decidable equality and a total order consistent with it. -/
class Element (α : Type) extends Ord α where
  [decEq : DecidableEq α]
  /-- The comparison is transitive and antisymmetric. -/
  trans : TransOrd α
  /-- Only equal facts compare as equal. -/
  lawful : LawfulEqOrd α

attribute [reducible, instance] Element.decEq

attribute [instance] Element.trans Element.lawful

namespace Element

instance : Element String where
  trans := inferInstance
  lawful := inferInstance

instance : Element Int64 where
  trans := inferInstance
  lawful := inferInstance

instance : Element UInt64 where
  trans := inferInstance
  lawful := inferInstance

instance : Element Bool where
  trans := inferInstance
  lawful := inferInstance

instance : Element Unit where
  compare _ _ := .eq
  trans := { eq_swap := rfl, isLE_trans := fun h _ => h }
  lawful := { compare_self := rfl, eq_of_compare := fun _ => rfl }

/-- Pairs compare by their first components, and by the second ones on a tie. -/
instance {α β : Type} [Element α] [Element β] : Element (α × β) where
  toOrd := lexOrd
  trans := inferInstanceAs (TransCmp (compareLex (compareOn Prod.fst) (compareOn Prod.snd)))
  lawful := {
    compare_self := by
      intro a
      simp [compare, compareLex, compareOn]
    eq_of_compare := by
      intro a b h
      simp only [compare, compareLex_eq_eq, compareOn] at h
      exact Prod.ext (LawfulEqOrd.eq_of_compare h.1) (LawfulEqOrd.eq_of_compare h.2) }

/-- Lists compare at the first position where they differ, a proper beginning being less. -/
instance {α : Type} [Element α] : Element (List α) where
  trans := inferInstance
  lawful := inferInstance

/-- An absent value is less than every present one. -/
instance {α : Type} [Element α] : Element (Option α) where
  trans := inferInstance
  lawful := inferInstance

/-- The order that a type takes from a key that determines its values. -/
@[reducible]
def ofKey {α β : Type} [Element β] (key : α → β) (injective : ∀ a b, key a = key b → a = b) :
    Element α where
  compare a b := compare (key a) (key b)
  decEq a b := decidable_of_iff (key a = key b) ⟨injective a b, congrArg key⟩
  trans := inferInstanceAs (TransCmp (compareOn key))
  lawful := {
    compare_self := ReflOrd.compare_self (α := β)
    eq_of_compare := fun h => injective _ _ (LawfulEqOrd.eq_of_compare h) }

variable {α : Type} [Element α] {a b c : α}

/-- The strict order is transitive. -/
theorem lt_trans (hab : compare a b = .lt) (hbc : compare b c = .lt) : compare a c = .lt :=
  TransCmp.lt_trans hab hbc

/-- Nothing is less than itself. -/
theorem lt_irrefl (a : α) : compare a a ≠ .lt := by
  simp

/-- Being greater is being less the other way round. -/
theorem gt_iff_lt : compare a b = .gt ↔ compare b a = .lt :=
  OrientedCmp.gt_iff_lt

/-- Facts that compare as equal are equal. -/
theorem eq_iff : compare a b = .eq ↔ a = b :=
  LawfulEqCmp.compare_eq_iff_eq

end Element

end Ratchet
