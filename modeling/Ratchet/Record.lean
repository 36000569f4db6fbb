import Ratchet.Codec.Lattice

/-!
# Records

A record is a fact with named fields.  What a record type has to offer is its list of fields and
a translation to the row of its field values; the order and the written form follow from that.
Records compare field by field, in the order of the fields.

## Main definitions

* `FieldType`, `Field`, `Row`: the types of fields, and rows of field values.
* `Record`: a type whose values are rows.
* `Record.element`, `Record.codec`: the order and the written form of a record type.
-/

namespace Ratchet

/-- The types that a field of a record can have. -/
inductive FieldType where
  | int
  | text
  | flag
  | dynamic
  /-- A dynamically typed lattice value that may be absent. -/
  | optionalDynamic
  | dynamicMap

namespace FieldType

/-- The values of a field. -/
@[reducible]
def Carrier : FieldType → Type
  | int => Int64
  | text => String
  | flag => Bool
  | dynamic => Dynamic
  | optionalDynamic => Option Dynamic
  | dynamicMap => StringMap Dynamic

instance : (t : FieldType) → Element t.Carrier
  | int => inferInstanceAs (Element Int64)
  | text => inferInstanceAs (Element String)
  | flag => inferInstanceAs (Element Bool)
  | dynamic => inferInstanceAs (Element Dynamic)
  | optionalDynamic => inferInstanceAs (Element (Option Dynamic))
  | dynamicMap => inferInstanceAs (Element (StringMap Dynamic))

instance : (t : FieldType) → Codec t.Carrier
  | int => inferInstanceAs (Codec Int64)
  | text => inferInstanceAs (Codec String)
  | flag => inferInstanceAs (Codec Bool)
  | dynamic => inferInstanceAs (Codec Dynamic)
  | optionalDynamic => inferInstanceAs (Codec (Option Dynamic))
  | dynamicMap => inferInstanceAs (Codec (StringMap Dynamic))

/-- The value of a field that is left out; only an optional field may be. -/
def missing? : (t : FieldType) → Option t.Carrier
  | optionalDynamic => some none
  | _ => none

end FieldType

/-- A field of a record. -/
structure Field where
  name : String
  type : FieldType

/-- The values of a list of fields. -/
@[reducible]
def Row : List Field → Type
  | [] => Unit
  | f :: fs => f.type.Carrier × Row fs

namespace Row

instance : (fs : List Field) → Element (Row fs)
  | [] => inferInstanceAs (Element Unit)
  | f :: fs =>
    have := instElement fs
    inferInstanceAs (Element (f.type.Carrier × Row fs))

/-- The members of a written record. -/
def members : {fs : List Field} → Row fs → List (String × Json)
  | [], () => []
  | f :: _, (value, row) => (f.name, Codec.encode value) :: row.members

/-- The row whose written values are given, `none` standing for a field that is left out. -/
def ofMembers? : (fs : List Field) → List (Option Json) → Option (Row fs)
  | [], [] => some ()
  | f :: fs, j :: js => do
    let value ← match j with
      | some j => Codec.decode? j
      | none => f.type.missing?
    return (value, ← ofMembers? fs js)
  | _, _ => none

end Row

/-- A type whose values are rows of named fields. -/
class Record (α : Type) where
  fields : List Field
  toRow : α → Row fields
  ofRow : Row fields → α
  ofRow_toRow : ∀ a, ofRow (toRow a) = a

namespace Record

/-- Records compare like their rows. -/
@[reducible]
def element (α : Type) [Record α] : Element α :=
  Element.ofKey (toRow (α := α)) fun a b h => by
    rw [← ofRow_toRow a, ← ofRow_toRow b, h]

/-- Records are written as objects of their fields. -/
@[reducible]
def codec (α : Type) [Record α] : Codec α where
  encode a := .object (toRow a).members
  decode? j := do
    let js ← Codec.fields? ((fields α).map Field.name) j
    return ofRow (← Row.ofMembers? (fields α) js)

end Record

end Ratchet
