import Ratchet.Json.Token

/-!
# Structured text

Values of the common data format: an absent value, truth values, numbers, strings, arrays and
objects.  An object lists its members in the order in which they are written, and may repeat a
key; what a repeated key means is left to whoever reads the object.

A well-formed text can have parts that nobody can read: strings that spell no text, and objects
with such a string for a key.  They are kept as `unreadable`, because a part that is never looked
at does no harm.

Parsing runs a machine over the tokens of a text.  It keeps a stack of the arrays and objects
that are still open, so any depth of nesting is read without recursion.

## Main definitions

* `Json`, `Json.tokens`, `Json.compact`: values and their shortest written form.
* `Json.parse?`: reads a text that holds exactly one value.
* `Json.cut`: makes unreadable what is nested too deep.
-/

namespace Ratchet

/-- A value of the data format. -/
inductive Json where
  | null
  | bool (value : Bool)
  | number (value : Json.Number)
  | string (value : String)
  | array (elements : List Json)
  | object (members : List (String × Json))
  /-- A part of a text that is well formed but cannot be read. -/
  | unreadable
  deriving Repr

namespace Json

/-- An integer. -/
def int (n : Int) : Json := .number (.int n)

/-! ## Writing -/

mutual

/-- The tokens of a value. -/
def tokens : Json → List Token
  | null => [.null]
  | bool b => [.bool b]
  | number n => [.number n]
  | string s => [.string s]
  | array [] => [.openArray, .closeArray]
  | array (e :: es) => .openArray :: tokens e ++ tokensElements es
  | object [] => [.openObject, .closeObject]
  | object ((key, value) :: ms) =>
    .openObject :: .string key :: .colon :: tokens value ++ tokensMembers ms
  | unreadable => [.unpaired]

/-- The tokens of the elements that follow the first one of an array. -/
def tokensElements : List Json → List Token
  | [] => [.closeArray]
  | e :: es => .comma :: tokens e ++ tokensElements es

/-- The tokens of the members that follow the first one of an object. -/
def tokensMembers : List (String × Json) → List Token
  | [] => [.closeObject]
  | (key, value) :: ms => .comma :: .string key :: .colon :: tokens value ++ tokensMembers ms

end

/-- The text of a value without any blanks. -/
def compact (j : Json) : String :=
  j.tokens.foldl (fun text t => text ++ t.text) ""

/-! ## Reading -/

/-- The key of a member, `none` if it spells no text. -/
abbrev Key := Option String

/-- An array or object that is still open, with what it holds so far in reverse order. -/
inductive Frame where
  | array (elements : List Json)
  /-- An open object, and the key whose value is being read. -/
  | object (members : List (Key × Json)) (key : Key)

/-- What the machine is ready for, inside the frames that are open. -/
inductive State where
  | value (frames : List Frame)
  | arrayOpened (frames : List Frame)
  | objectOpened (frames : List Frame)
  /-- Another key has to follow the members of an object. -/
  | key (members : List (Key × Json)) (frames : List Frame)
  | colon (members : List (Key × Json)) (key : Key) (frames : List Frame)
  | complete (value : Json) (frames : List Frame)

/-- Reads the first token of a value. -/
def State.begin? (frames : List Frame) : Token → Option State
  | .null => some (.complete .null frames)
  | .bool b => some (.complete (.bool b) frames)
  | .number n => some (.complete (.number n) frames)
  | .string s => some (.complete (.string s) frames)
  | .unpaired => some (.complete .unreadable frames)
  | .openArray => some (.arrayOpened frames)
  | .openObject => some (.objectOpened frames)
  | _ => none

/-- The key that a token is. -/
def key? : Token → Option Key
  | .string s => some (some s)
  | .unpaired => some none
  | _ => none

/-- The object with the given members, which can be read if all its keys can. -/
def ofMembers (ms : List (Key × Json)) : Json :=
  match ms.mapM fun m => m.1.map fun name => (name, m.2) with
  | some ms => .object ms
  | none => .unreadable

/-- Reads one token. -/
def State.step? : State → Token → Option State
  | .value frames, t => begin? frames t
  | .arrayOpened frames, .closeArray => some (.complete (.array []) frames)
  | .arrayOpened frames, t => begin? (.array [] :: frames) t
  | .objectOpened frames, .closeObject => some (.complete (.object []) frames)
  | .objectOpened frames, t => (key? t).map fun name => .colon [] name frames
  | .key members frames, t => (key? t).map fun name => .colon members name frames
  | .colon members name frames, .colon => some (.value (.object members name :: frames))
  | .complete v (.array es :: frames), .comma => some (.value (.array (v :: es) :: frames))
  | .complete v (.array es :: frames), .closeArray =>
    some (.complete (.array (v :: es).reverse) frames)
  | .complete v (.object ms name :: frames), .comma => some (.key ((name, v) :: ms) frames)
  | .complete v (.object ms name :: frames), .closeObject =>
    some (.complete (ofMembers ((name, v) :: ms).reverse) frames)
  | _, _ => none

/-- The value that a list of tokens spells out. -/
def ofTokens? (ts : List Token) : Option Json :=
  match ts.foldlM State.step? (.value []) with
  | some (.complete v []) => some v
  | _ => none

/-- Reads a text that holds exactly one value, with blanks around its tokens. -/
def parse? (text : String) : Option Json := do
  ofTokens? (← tokenize? text)

/-! ## Nesting -/

mutual

/-- The value in which arrays and objects are nested at most `levels` deep, those below being
unreadable. -/
def cut : (levels : Nat) → Json → Json
  | 0, array _ => unreadable
  | 0, object _ => unreadable
  | levels + 1, array es => array (cutElements levels es)
  | levels + 1, object ms => object (cutMembers levels ms)
  | _, j => j

/-- The elements of an array, each cut. -/
def cutElements (levels : Nat) : List Json → List Json
  | [] => []
  | e :: es => cut levels e :: cutElements levels es

/-- The members of an object, their values cut. -/
def cutMembers (levels : Nat) : List (String × Json) → List (String × Json)
  | [] => []
  | (name, value) :: ms => (name, cut levels value) :: cutMembers levels ms

end

end Json

end Ratchet
