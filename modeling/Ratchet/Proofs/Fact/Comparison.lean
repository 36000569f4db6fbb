import Ratchet.Fact
import Ratchet.Proofs.Lattice.Comparison

/-!
# How facts compare

A record is compared as the row of its fields, and a field like the values of its type.  So the
order of rows is a nesting of pairs, with an order for each type of field (`FieldType.orderedBy`)
and one induction on the list of fields (`Row.orderedBy`); no record has a proof of its own.

## Main result

* `Element.compare_structural`: dynamically typed values, the entries, maps and sets over any
  ordered type, and all messages are totally ordered, each in the order that is described on its
  parts.  A set that is built by insertions is the one sorted list of what was inserted.
-/

namespace Ratchet

/-- The order of the values of a field. -/
def FieldType.Precedes : (t : FieldType) → t.Carrier → t.Carrier → Prop
  | int => fun a b : Int64 => a < b
  | text => fun a b : String => a < b
  | flag => fun a b : Bool => a < b
  | dynamic => Dynamic.Precedes
  | optionalDynamic => Option.lt Dynamic.Precedes
  | dynamicMap => StringMap.Precedes Dynamic.Precedes

theorem FieldType.orderedBy : (t : FieldType) → OrderedBy t.Precedes
  | int => OrderedBy.integers
  | text => OrderedBy.texts
  | flag => OrderedBy.flags
  | dynamic => Dynamic.orderedBy
  | optionalDynamic => Dynamic.orderedBy.options
  | dynamicMap => StringMap.orderedBy Dynamic.orderedBy

/-- Rows stand in the order of the first field in which they differ. -/
def Row.Precedes : (fs : List Field) → Row fs → Row fs → Prop
  | [] => fun _ _ => False
  | f :: fs => Prod.Lex f.type.Precedes (Row.Precedes fs)

theorem Row.orderedBy (fs : List Field) : OrderedBy (Row.Precedes fs) := by
  induction fs with
  | nil => exact .of_lt_iff fun _ _ => iff_of_false nofun id
  | cons f fs ih => exact f.type.orderedBy.pairs ih

/-- Records stand in the order of their rows. -/
def Record.Precedes {α : Type} [Record α] (a b : α) : Prop := Row.Precedes _ (toRow a) (toRow b)

theorem MessageType.orderedBy (m : MessageType) : OrderedBy (Record.Precedes (α := m.Carrier)) :=
  (Row.orderedBy _).comap Record.toRow fun _ _ => rfl

/-- Comparing is a total order, and calls equal just what is equal, on dynamically typed values of
any depth; on entries, maps and sets of a type on which it is; and on all messages.  In each case it
is the order that is described on the parts of the values.

So a set that is built by insertions, in any order and with any repetitions, is strictly ascending,
has no two equal members, and has lost none of what was inserted, and there is no other list of
which this is true.  It compares as equal to just the sets that have the same members. -/
theorem Element.compare_structural :
    OrderedBy Dynamic.Precedes ∧
    (∀ (V : Type) [Element V] (before : V → V → Prop), OrderedBy before →
      OrderedBy (MapEntry.Precedes before) ∧ OrderedBy (StringMap.Precedes before) ∧
        OrderedBy (GrowSet.Precedes before)) ∧
    (∀ m : MessageType, OrderedBy (Record.Precedes (α := m.Carrier))) ∧
    ∀ (α : Type) [Element α] (as : List α),
      (∀ xs, Sorts as xs ↔ xs = (as.foldl GrowSet.insert .empty).elements) ∧
      ∀ s : GrowSet α, compare (as.foldl GrowSet.insert .empty) s = .eq ↔ ∀ x, x ∈ s ↔ x ∈ as := by
  refine ⟨Dynamic.orderedBy, ?_, MessageType.orderedBy, ?_⟩
  · intro V _ before h
    exact ⟨MapEntry.orderedBy h, StringMap.orderedBy h, GrowSet.orderedBy h⟩
  · intro α _ as
    have hempty : Sorts [] (GrowSet.empty : GrowSet α).elements :=
      .of_ascending .nil fun _ => Iff.rfl
    have hsorts : Sorts as (as.foldl GrowSet.insert .empty).elements := sorts_foldl_insert hempty as
    refine ⟨fun xs => ⟨fun hxs => hxs.unique hsorts, fun heq => heq ▸ hsorts⟩, fun s => ?_⟩
    rw [Element.eq_iff]
    constructor
    · rintro rfl
      exact hsorts.mem_iff
    · intro h
      exact GrowSet.ext_mem fun x => (hsorts.mem_iff x).trans (h x).symm

/-- A request to store a map of maps. -/
def storing (key : String) (n : Int64) : KeyValue.Put where
  requestId := 1
  addr := "a"
  clientAddr := "c"
  key := "k"
  value := .ofMap (.ofList [("inner", .ofMap (.ofList [(key, .ofMaxInt ⟨n⟩)])),
    ("outer", .ofFlag ⟨true⟩)])

/-- Requests that differ two maps deep are told apart there, by a key or by what stands under it.
Inserted in any order, they are sorted, and one that comes twice is listed once. -/
theorem Element.compare_structural_nested :
    OrderedBy (StringMap.Precedes Dynamic.Precedes) ∧
    Record.Precedes (storing "x" 5) (storing "y" (-5)) ∧
    Record.Precedes (storing "y" (-5)) (storing "y" 3) ∧
    ([storing "y" 3, storing "x" 5, storing "y" (-5), storing "x" 5].foldl GrowSet.insert
      .empty).elements = [storing "x" 5, storing "y" (-5), storing "y" 3] := by
  have hlisted : ∀ p q r : Prop, p ∨ q ∨ r ↔ r ∨ p ∨ q ∨ p := by tauto
  obtain ⟨hvalues, hcontainers, hmessages, hsets⟩ := Element.compare_structural
  have hput := hmessages .put
  have hkey : compare (storing "x" 5) (storing "y" (-5)) = .lt := by decide +kernel
  have hvalue : compare (storing "y" (-5)) (storing "y" 3) = .lt := by decide +kernel
  have hends : compare (storing "x" 5) (storing "y" 3) = .lt := hput.trans hkey hvalue
  refine ⟨(hcontainers Dynamic _ hvalues).2.1, (hput.lt_iff _ _).1 hkey,
    (hput.lt_iff _ _).1 hvalue, ?_⟩
  refine (((hsets KeyValue.Put _).1 _).1 (.of_ascending ?_ fun x => ?_)).symm
  · simp [hkey, hvalue, hends]
  · simp only [List.mem_cons, List.not_mem_nil, or_false]
    exact hlisted _ _ _

end Ratchet
