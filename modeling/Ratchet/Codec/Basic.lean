import Ratchet.Json.Basic

/-!
# Written forms of values

A codec says how the values of a type are written in the data format and which written values
are accepted for it.  Reading is strict: an integer has to be an integer literal in range, and
nothing is converted from one type to another.

A structure is written as an object of its fields.  It is read from an object that has every
field once, in any order, among members of other names; or from an array of exactly its fields.

A text from outside is read down to a fixed depth of nesting only.  The members of other names are
not read, so whatever they hold, and however deep it is nested, the structure is accepted.

## Main definitions

* `Codec`, with `Codec.text` and `Codec.ofText?`.
* `Codec.accept?`: reads a text from outside.
* `fields?`: the members of a structure by name.
-/

namespace Ratchet

/-- How the values of a type are written and read. -/
class Codec (α : Type) where
  encode : α → Json
  decode? : Json → Option α

namespace Codec

variable {α β : Type} [Codec α] [Codec β]

/-- The compact text of a value. -/
def text (a : α) : String := (encode a).compact

/-- The value that a text stands for. -/
def ofText? (s : String) : Option α := do
  decode? (← Json.parse? s)

/-- How deep the arrays and objects of a text from outside are read. -/
def nestingLimit : Nat := 127

/-- The value that a text from outside stands for, unless it is nested too deep. -/
def accept? (s : String) : Option α := do
  decode? ((← Json.parse? s).cut nestingLimit)

instance : Codec Bool where
  encode := .bool
  decode?
    | .bool b => some b
    | _ => none

instance : Codec String where
  encode := .string
  decode?
    | .string s => some s
    | _ => none

instance : Codec Int64 where
  encode n := .int n.toInt
  decode?
    | .number (.int n) =>
      if Int64.minValue.toInt ≤ n ∧ n ≤ Int64.maxValue.toInt then some (Int64.ofInt n) else none
    | _ => none

instance : Codec UInt64 where
  encode n := .int n.toNat
  decode?
    | .number (.int n) =>
      if 0 ≤ n ∧ n.toNat < UInt64.size then some (UInt64.ofNat n.toNat) else none
    | _ => none

instance : Codec (List α) where
  encode as := .array (as.map encode)
  decode?
    | .array js => js.mapM decode?
    | _ => none

/-- A pair is an array of two. -/
instance : Codec (α × β) where
  encode p := .array [encode p.1, encode p.2]
  decode?
    | .array [j, k] => do return (← decode? j, ← decode? k)
    | _ => none

/-- An absent value is written as `null`. -/
instance : Codec (Option α) where
  encode
    | none => .null
    | some a => encode a
  decode?
    | .null => some none
    | j => some <$> decode? j

/-- The members of a written structure with the given field names, `none` for a field that is
left out.  A field given twice is refused. -/
def fields? (names : List String) : Json → Option (List (Option Json))
  | .object ms => names.mapM fun name =>
    match ms.filter fun m => m.1 == name with
    | [] => some none
    | [m] => some (some m.2)
    | _ => none
  | .array js => if js.length = names.length then some (js.map some) else none
  | _ => none

/-- The only field of a written structure with one field. -/
def field? (name : String) (j : Json) : Option Json := do
  match ← fields? [name] j with
  | [some value] => some value
  | _ => none

end Codec

end Ratchet
