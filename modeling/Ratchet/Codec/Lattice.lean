import Ratchet.Codec.Basic
import Ratchet.Lattice.Dynamic

/-!
# Written forms of lattice values

Registers, sets and maps are structures with one field.  Reading a set sorts its elements and
drops repetitions; reading a map lets the last entry of a key count.  What is read is taken as it
stands: an integer register may be read below zero.

A dynamically typed value is an object whose only key names the kind of the value.  A kind on its
own is written as its name, and is also read from an object of that form that holds no value.
-/

namespace Ratchet

open Codec

instance : Codec MaxInt where
  encode m := .object [("value", encode m.value)]
  decode? j := do return ⟨← decode? (← field? "value" j)⟩

instance : Codec MaxText where
  encode m := .object [("value", encode m.value)]
  decode? j := do return ⟨← decode? (← field? "value" j)⟩

instance : Codec Flag where
  encode b := .object [("value", encode b.value)]
  decode? j := do return ⟨← decode? (← field? "value" j)⟩

instance : Codec Bits where
  encode b := encode b.value
  decode? j := do return ⟨← decode? j⟩

instance {α : Type} [Element α] [Codec α] : Codec (GrowSet α) where
  encode s := .object [("elements", encode s.elements)]
  decode? j := do return .ofList (← decode? (← field? "elements" j))

/-- The members of an object as the entries of a map. -/
def StringMap.ofMembers? {V : Type} [Codec V] : Json → Option (StringMap V)
  | .object ms => do
    return .ofList (← ms.mapM fun m => do return (m.1, ← decode? m.2))
  | _ => none

instance {V : Type} [Codec V] : Codec (StringMap V) where
  encode m := .object [("entries", .object (m.entries.map fun e => (e.1, encode e.2)))]
  decode? j := do StringMap.ofMembers? (← field? "entries" j)

instance {V : Type} [Codec V] : Codec (MapEntry V) where
  encode e := .object [("key", encode e.key), ("val", encode e.value)]
  decode? j := do
    match ← fields? ["key", "val"] j with
    | [some key, some value] => return ⟨← decode? key, ← decode? value⟩
    | _ => none

namespace Kind

/-- The name of a kind in the data format. -/
def name : Kind → String
  | set => "Set"
  | map => "Map"
  | maxInt => "MaxInt"
  | maxText => "MaxString"
  | flag => "Bool"

/-- All kinds. -/
def all : List Kind := [set, map, maxInt, maxText, flag]

/-- The kind with a given name. -/
def ofName? (s : String) : Option Kind := all.find? fun k => k.name == s

instance : Codec Kind where
  encode k := .string k.name
  decode?
    | .string s => ofName? s
    | .object [(s, .null)] => ofName? s
    | _ => none

end Kind

namespace Tree

mutual

/-- The written form of a tree. -/
def encode : Tree → Json
  | set s => .object [(Kind.set.name, Codec.encode s)]
  | map es => .object [(Kind.map.name, .object [("entries", .object (encodeEntries es))])]
  | maxInt m => .object [(Kind.maxInt.name, Codec.encode m)]
  | maxText m => .object [(Kind.maxText.name, Codec.encode m)]
  | flag b => .object [(Kind.flag.name, Codec.encode b)]

/-- The written forms of the entries of a map. -/
def encodeEntries : List (String × Tree) → List (String × Json)
  | [] => []
  | (key, t) :: es => (key, encode t) :: encodeEntries es

end

end Tree

namespace Dynamic

mutual

/-- Reads a value. -/
def decode? : Json → Option Dynamic
  | .object [(name, content)] => do
    match ← Kind.ofName? name with
    | .set => return ofSet (← Codec.decode? content)
    | .map => return ofMap (.ofList (← decodeMap? content))
    | .maxInt => return ofMaxInt (← Codec.decode? content)
    | .maxText => return ofMaxText (← Codec.decode? content)
    | .flag => return ofFlag (← Codec.decode? content)
  | _ => none

/-- Reads a map of values, a structure with the only field `entries`. -/
def decodeMap? : Json → Option (List (String × Dynamic))
  | .object ms => decodeField? ms
  | .array [j] => decodeEntries? j
  | _ => none

/-- Finds the field `entries` among the members of a map and reads it, refusing a second one. -/
def decodeField? : List (String × Json) → Option (List (String × Dynamic))
  | [] => none
  | (name, content) :: ms =>
    if name = "entries" then
      if ms.any fun m => m.1 == "entries" then none else decodeEntries? content
    else decodeField? ms

/-- Reads the entries of a map, the members of an object. -/
def decodeEntries? : Json → Option (List (String × Dynamic))
  | .object ms => decodeMembers? ms
  | _ => none

/-- Reads the members of an object as entries. -/
def decodeMembers? : List (String × Json) → Option (List (String × Dynamic))
  | [] => some []
  | (key, content) :: ms => do return (key, ← decode? content) :: (← decodeMembers? ms)

end

instance : Codec Dynamic where
  encode a := a.tree.encode
  decode? := decode?

end Dynamic

end Ratchet
