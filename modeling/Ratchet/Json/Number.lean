/-!
# Number literals

A number literal is either an integer or a decimal with a fraction or an exponent; the two are
kept apart, because where an integer is asked for, `1.0` and `1e0` will not do.  Negative zero is
not an integer either.  Literals are read exactly: nothing is rounded.
-/

namespace Ratchet.Json

/-- The value of a number literal. -/
inductive Number where
  | int (value : Int)
  /-- A literal with a fraction or an exponent: `digits` times ten to the power `exponent`. -/
  | decimal (negative : Bool) (digits : Nat) (exponent : Int)
  deriving DecidableEq, Repr

namespace Number

/-- The value of a list of decimal digits. -/
def digitsValue (ds : List Char) : Nat := Nat.ofDigitChars 10 ds 0

/-- Whether the digits in front of the point are well formed: there is one, and a zero stands
alone. -/
def isWhole : List Char → Bool
  | [] => false
  | ['0'] => true
  | d :: _ => d != '0'

/-- Splits off the digits after a point, if a point comes next; at least one has to follow it. -/
def fraction? : List Char → Option (List Char × List Char)
  | '.' :: cs =>
    let ds := cs.takeWhile Char.isDigit
    if ds.isEmpty then none else some (ds, cs.dropWhile Char.isDigit)
  | cs => some ([], cs)

/-- Reads the digits of an exponent, which have to fill the rest of the literal. -/
def exponentDigits? (cs : List Char) : Option Int :=
  if !cs.isEmpty && cs.all Char.isDigit then some (digitsValue cs) else none

/-- Reads an exponent that fills the rest of a literal, `none` inside if there is no rest. -/
def exponent? : List Char → Option (Option Int)
  | [] => some none
  | c :: cs =>
    if c = 'e' ∨ c = 'E' then
      match cs with
      | '-' :: ds => (exponentDigits? ds).map fun e => some (-e)
      | '+' :: ds => (exponentDigits? ds).map some
      | ds => (exponentDigits? ds).map some
    else none

/-- Reads the part of a literal after its sign. -/
def unsigned? (negative : Bool) (cs : List Char) : Option Number := do
  let whole := cs.takeWhile Char.isDigit
  guard (isWhole whole)
  let (places, rest) ← fraction? (cs.dropWhile Char.isDigit)
  let exponent ← exponent? rest
  if places.isEmpty && exponent.isNone then
    let n := digitsValue whole
    return if !negative then .int n
      else if n = 0 then .decimal true 0 0
      else .int (-n)
  else
    return .decimal negative (digitsValue (whole ++ places)) (exponent.getD 0 - places.length)

/-- Reads a number literal. -/
def ofChars? : List Char → Option Number
  | '-' :: cs => unsigned? true cs
  | cs => unsigned? false cs

/-- The literal of a number. -/
def text : Number → String
  | int n => toString n
  | decimal negative digits exponent =>
    let sign := if negative then "-" else ""
    s!"{sign}{digits}e{exponent}"

/-- The rational number that a literal stands for. -/
def toRat : Number → Rat
  | int n => n
  | decimal negative digits exponent =>
    let magnitude : Rat := digits * (10 : Rat) ^ exponent
    if negative then -magnitude else magnitude

end Number

end Ratchet.Json
