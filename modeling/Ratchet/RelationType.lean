import Ratchet.Fact

/-!
# The types of relations

A program can hold relations of many types.  `RelationType` lists them, and for each gives the
type of its values, the type of its tuples, and the lattice that the values form.

## Main definitions

* `RelationType`, with `RelationType.Value` and `RelationType.Tuple`.
* `RelationType.code`, `RelationType.ofCode?`: the short names of relation types.
-/

namespace Ratchet

/-- The types of relations. -/
inductive RelationType where
  | max
  | maxText
  | flag
  | set (facts : FactType)
  | map (values : RelationType)
  | dynamicMap
  deriving DecidableEq

namespace RelationType

/-- The values of a relation. -/
@[reducible]
def Value : RelationType → Type
  | max => MaxInt
  | maxText => MaxText
  | flag => Flag
  | set f => GrowSet f.Carrier
  | map v => StringMap v.Value
  | dynamicMap => StringMap Dynamic

/-- The single facts that a relation is built from. -/
@[reducible]
def Tuple : RelationType → Type
  | max => Int64
  | maxText => String
  | flag => Bool
  | set f => f.Carrier
  | map v => MapEntry v.Value
  | dynamicMap => MapEntry Dynamic

instance : (t : RelationType) → Relation t.Value t.Tuple
  | max => inferInstanceAs (Relation MaxInt Int64)
  | maxText => inferInstanceAs (Relation MaxText String)
  | flag => inferInstanceAs (Relation Flag Bool)
  | set f => inferInstanceAs (Relation (GrowSet f.Carrier) f.Carrier)
  | map v =>
    have := instRelationValueTuple v
    inferInstanceAs (Relation (StringMap v.Value) (MapEntry v.Value))
  | dynamicMap => inferInstanceAs (Relation (StringMap Dynamic) (MapEntry Dynamic))

instance : (t : RelationType) → Element t.Value
  | max => inferInstanceAs (Element MaxInt)
  | maxText => inferInstanceAs (Element MaxText)
  | flag => inferInstanceAs (Element Flag)
  | set f => inferInstanceAs (Element (GrowSet f.Carrier))
  | map v =>
    have := instElementValue v
    inferInstanceAs (Element (StringMap v.Value))
  | dynamicMap => inferInstanceAs (Element (StringMap Dynamic))

instance : (t : RelationType) → Codec t.Value
  | max => inferInstanceAs (Codec MaxInt)
  | maxText => inferInstanceAs (Codec MaxText)
  | flag => inferInstanceAs (Codec Flag)
  | set f => inferInstanceAs (Codec (GrowSet f.Carrier))
  | map v =>
    have := instCodecValue v
    inferInstanceAs (Codec (StringMap v.Value))
  | dynamicMap => inferInstanceAs (Codec (StringMap Dynamic))

instance : (t : RelationType) → Codec t.Tuple
  | max => inferInstanceAs (Codec Int64)
  | maxText => inferInstanceAs (Codec String)
  | flag => inferInstanceAs (Codec Bool)
  | set f => inferInstanceAs (Codec f.Carrier)
  | map v => inferInstanceAs (Codec (MapEntry v.Value))
  | dynamicMap => inferInstanceAs (Codec (MapEntry Dynamic))

/-- The value that relations of a type start from. -/
def bottom (t : RelationType) : t.Value := Relation.bottom

/-- The kind of lattice that relations of a type are. -/
def kind (t : RelationType) : Kind := Relation.kind t.Value

/-- The short name of a relation type. -/
def code : RelationType → String
  | max => "max"
  | maxText => "max_str"
  | flag => "bool"
  | set f => "set_" ++ f.name
  | map (set .text) => "map_set"
  | map (map max) => "map_map"
  | map v => "map_" ++ v.code
  | dynamicMap => "map_val"

/-- The relation types that have a short name to call them by. -/
def all : List RelationType :=
  [max, maxText, flag, map max, map maxText, map flag, map (set .text), map (map max),
    dynamicMap] ++ FactType.all.map set

/-- The relation type with a given short name. -/
def ofCode? (s : String) : Option RelationType := all.find? fun t => t.code == s

end RelationType

end Ratchet
