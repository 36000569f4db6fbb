import Ratchet.Json.Number

/-!
# Tokens

A text is cut into tokens before its structure is looked at: brackets, commas, colons, quoted
strings, numbers and three words.  Blanks between tokens carry no meaning.

Inside quotes every character stands for itself, except that a quote, a backslash and the
characters below U+0020 are written as escapes.  A character beyond U+FFFF may be escaped as two
surrogates.  A surrogate without its partner stands for no character: a string that has one is
still a token, but there is no text that it spells.

## Main definitions

* `Token`, `Token.text`: tokens and how they are written.
* `tokenize?`: cuts a text into tokens.
-/

namespace Ratchet.Json

/-- The smallest parts of a text that have a meaning of their own. -/
inductive Token where
  | openArray
  | closeArray
  | openObject
  | closeObject
  | comma
  | colon
  | null
  | bool (value : Bool)
  | number (value : Number)
  | string (value : String)
  /-- A quoted string that spells no text, because a surrogate in it has no partner. -/
  | unpaired
  deriving DecidableEq, Repr

/-! ## Writing -/

/-- The hexadecimal digit for a number below sixteen. -/
def hexDigit (n : Nat) : Char :=
  if n < 10 then Char.ofNat (48 + n) else Char.ofNat (87 + n)

/-- How a character is written inside quotes. -/
def escape (c : Char) : List Char :=
  match c with
  | '"' => ['\\', '"']
  | '\\' => ['\\', '\\']
  | '\n' => ['\\', 'n']
  | '\r' => ['\\', 'r']
  | '\t' => ['\\', 't']
  | '\x08' => ['\\', 'b']
  | '\x0c' => ['\\', 'f']
  | c =>
    if c < ' ' then ['\\', 'u', '0', '0', hexDigit (c.toNat / 16), hexDigit (c.toNat % 16)]
    else [c]

/-- A string in quotes. -/
def quote (s : String) : String :=
  String.ofList ('"' :: s.toList.flatMap escape ++ ['"'])

/-- How a token is written. -/
def Token.text : Token → String
  | openArray => "["
  | closeArray => "]"
  | openObject => "\x7b"
  | closeObject => "\x7d"
  | comma => ","
  | colon => ":"
  | null => "null"
  | bool true => "true"
  | bool false => "false"
  | number n => n.text
  | string s => quote s
  | unpaired => "\"\\ud800\""

/-! ## Strings -/

/-- The value of a hexadecimal digit, in either case. -/
def hexValue? (c : Char) : Option Nat :=
  if '0' ≤ c ∧ c ≤ '9' then some (c.toNat - 48)
  else if 'a' ≤ c ∧ c ≤ 'f' then some (c.toNat - 87)
  else if 'A' ≤ c ∧ c ≤ 'F' then some (c.toNat - 55)
  else none

/-- The value of four hexadecimal digits. -/
def hexUnit? (a b c d : Char) : Option Nat := do
  return (((← hexValue? a) * 16 + (← hexValue? b)) * 16 + (← hexValue? c)) * 16 + (← hexValue? d)

/-- The character that a backslash and a letter stand for. -/
def unescape? : Char → Option Char
  | '"' => some '"'
  | '\\' => some '\\'
  | '/' => some '/'
  | 'b' => some '\x08'
  | 'f' => some '\x0c'
  | 'n' => some '\n'
  | 'r' => some '\r'
  | 't' => some '\t'
  | _ => none

/-- A part of a quoted string: a character, or an escaped unit of sixteen bits. -/
inductive Piece where
  /-- A character, written as itself or by a backslash and a letter. -/
  | char (c : Char)
  /-- A unit written by its four hexadecimal digits. -/
  | unit (n : Nat)

/-- Whether a unit is the first half of a pair. -/
def isHighSurrogate (n : Nat) : Bool := 0xD800 ≤ n && n < 0xDC00

/-- Whether a unit is the second half of a pair. -/
def isLowSurrogate (n : Nat) : Bool := 0xDC00 ≤ n && n < 0xE000

/-- Puts the pieces of a string together, pairing surrogates; `none` if one has no partner. -/
def assemble? : List Piece → Option (List Char)
  | [] => some []
  | .char c :: ps => (c :: ·) <$> assemble? ps
  | .unit n :: ps =>
    if isHighSurrogate n then
      match ps with
      | .unit m :: ps =>
        if isLowSurrogate m then
          (Char.ofNat (0x10000 + (n - 0xD800) * 0x400 + (m - 0xDC00)) :: ·) <$> assemble? ps
        else none
      | _ => none
    else if isLowSurrogate n then none
    else (Char.ofNat n :: ·) <$> assemble? ps

/-- Reads pieces up to the closing quote, and gives what follows it. -/
def pieces? : List Char → Option (List Piece × List Char)
  | [] => none
  | '"' :: cs => some ([], cs)
  | '\\' :: 'u' :: a :: b :: c :: d :: cs => do
    let n ← hexUnit? a b c d
    let (ps, rest) ← pieces? cs
    return (.unit n :: ps, rest)
  | '\\' :: e :: cs => do
    let c ← unescape? e
    let (ps, rest) ← pieces? cs
    return (.char c :: ps, rest)
  | c :: cs => do
    guard (' ' ≤ c ∧ c ≠ '\\')
    let (ps, rest) ← pieces? cs
    return (.char c :: ps, rest)

/-- The token of a string with the given pieces. -/
def stringToken (ps : List Piece) : Token :=
  match assemble? ps with
  | some text => .string (String.ofList text)
  | none => .unpaired

/-- Reads a string up to its closing quote, and gives what follows it. -/
def string? (cs : List Char) : Option (Token × List Char) := do
  let (ps, rest) ← pieces? cs
  return (stringToken ps, rest)

/-! ## Cutting a text into tokens -/

/-- Whether a character may stand between tokens. -/
def isBlank (c : Char) : Bool := c == ' ' || c == '\t' || c == '\n' || c == '\r'

/-- Whether a character can be part of a number. -/
def isNumeric (c : Char) : Bool :=
  c.isDigit || c == '-' || c == '+' || c == '.' || c == 'e' || c == 'E'

/-- The token of a single character. -/
def punctuation? : Char → Option Token
  | '[' => some .openArray
  | ']' => some .closeArray
  | '\x7b' => some .openObject
  | '\x7d' => some .closeObject
  | ',' => some .comma
  | ':' => some .colon
  | _ => none

/-- The token of a word. -/
def word? (cs : List Char) : Option Token :=
  if cs = ['n', 'u', 'l', 'l'] then some .null
  else if cs = ['t', 'r', 'u', 'e'] then some (.bool true)
  else if cs = ['f', 'a', 'l', 's', 'e'] then some (.bool false)
  else none

/-- The first token of a text that begins with `c`, and the text after it. -/
def token? (c : Char) (cs : List Char) : Option (Token × List Char) :=
  match punctuation? c with
  | some t => some (t, cs)
  | none =>
    if c = '"' then string? cs
    else if c.isDigit || c == '-' then do
      let n ← Number.ofChars? (c :: cs.takeWhile isNumeric)
      return (.number n, cs.dropWhile isNumeric)
    else do
      let t ← word? (c :: cs.takeWhile Char.isAlpha)
      return (t, cs.dropWhile Char.isAlpha)

/-- The tokens of a text that is no longer than `fuel`. -/
def tokens? : Nat → List Char → Option (List Token)
  | _, [] => some []
  | 0, _ :: _ => none
  | fuel + 1, c :: cs =>
    if isBlank c then tokens? fuel cs
    else do
      let (t, rest) ← token? c cs
      return t :: (← tokens? fuel rest)

/-- Cuts a text into tokens; `none` if it has a part that is no token. -/
def tokenize? (text : String) : Option (List Token) :=
  tokens? text.length text.toList

end Ratchet.Json
