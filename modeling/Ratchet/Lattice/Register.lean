import Ratchet.Element
import Ratchet.Lattice.Basic

/-!
# Registers

A register holds one value that only ever moves up: an integer, a text, a truth value or a word
of bits.  Integer and text registers join by taking the greater value, truth values by
disjunction, and words bit by bit.

Integer registers start at zero because they mostly carry counts and thresholds.  A register can
also be built below that start; joining still takes the greater of the two values.
-/

namespace Ratchet

/-! ## Integers -/

/-- An integer register. -/
structure MaxInt where
  value : Int64
  deriving DecidableEq

namespace MaxInt

/-- The register with the greater integer. -/
def join (a b : MaxInt) : MaxInt :=
  if a.value < b.value then b else a

/-- Raises the register to `n` if `n` exceeds it. -/
def add (a : MaxInt) (n : Int64) : MaxInt × Bool :=
  if a.value < n then (⟨n⟩, true) else (a, false)

instance : Element MaxInt :=
  Element.ofKey value fun ⟨_⟩ ⟨_⟩ h => congrArg mk h

instance : Relation MaxInt Int64 where
  join a b := .ok (a.join b)
  merge a b := .ok (a.add b.value)
  kind := .maxInt
  bottom := ⟨0⟩
  add a n := .ok (a.add n)
  tuples a := [a.value]
  collect ns := .ok ⟨ns.getLastD 0⟩

/-- The register that holds a count.  Counts beyond the range of the register stop at its upper
end, so comparing a register with a threshold decides like comparing the count itself. -/
def ofCount (n : Nat) : MaxInt :=
  ⟨Int64.ofNat (min n Int64.maxValue.toNatClampNeg)⟩

end MaxInt

/-! ## Texts -/

/-- A text register; texts compare code point by code point. -/
structure MaxText where
  value : String
  deriving DecidableEq

namespace MaxText

/-- The register with the greater text. -/
def join (a b : MaxText) : MaxText :=
  if a.value < b.value then b else a

/-- Raises the register to `s` if `s` exceeds it. -/
def add (a : MaxText) (s : String) : MaxText × Bool :=
  if a.value < s then (⟨s⟩, true) else (a, false)

instance : Element MaxText :=
  Element.ofKey value fun ⟨_⟩ ⟨_⟩ h => congrArg mk h

instance : Relation MaxText String where
  join a b := .ok (a.join b)
  merge a b := .ok (a.add b.value)
  kind := .maxText
  bottom := ⟨""⟩
  add a s := .ok (a.add s)
  tuples a := [a.value]
  collect ss := .ok ⟨ss.getLastD ""⟩

end MaxText

/-! ## Truth values -/

/-- A truth value that never turns false again. -/
structure Flag where
  value : Bool
  deriving DecidableEq

namespace Flag

/-- The disjunction of two flags. -/
def join (a b : Flag) : Flag :=
  ⟨a.value || b.value⟩

/-- Raises the flag if `b` is true; it grew if it was down before. -/
def add (a : Flag) (b : Bool) : Flag × Bool :=
  (⟨a.value || b⟩, !a.value && b)

instance : Element Flag :=
  Element.ofKey value fun ⟨_⟩ ⟨_⟩ h => congrArg mk h

instance : Relation Flag Bool where
  join a b := .ok (a.join b)
  merge a b := .ok (a.add b.value)
  kind := .flag
  bottom := ⟨false⟩
  add a b := .ok (a.add b)
  tuples a := [a.value]
  collect bs := .ok ⟨bs.getLastD false⟩

end Flag

/-! ## Words of bits -/

/-- A word of bits that only gains bits. -/
structure Bits where
  value : UInt64
  deriving DecidableEq

namespace Bits

/-- The word with the bits of both. -/
def join (a b : Bits) : Bits :=
  ⟨a.value ||| b.value⟩

instance : Element Bits :=
  Element.ofKey value fun ⟨_⟩ ⟨_⟩ h => congrArg mk h

instance : Lattice Bits where
  join a b := .ok (a.join b)
  merge := Lattice.mergeOfJoin fun a b => .ok (a.join b)

end Bits

end Ratchet
