/-!
# Rates

A rate is a probability as a number of double precision, held exactly as the rational number that
it stands for.  A rate at or below zero means never, a rate of one or more means always.

A rate is decided by a random word: its upper 53 bits are a fraction of one, and the rate says yes
if the fraction is less than it.

## Main definitions

* `Binary64.nearest`: the number of double precision that is nearest to a rational number.
* `Rate.accepts`: the decision that a random word stands for.
-/

namespace Ratchet

namespace Binary64

/-- The quotient rounded to the nearest natural number, a tie going to the even one. -/
def roundDiv (num den : Nat) : Nat :=
  let floor := num / den
  let rest := num % den
  if 2 * rest < den then floor
  else if den < 2 * rest then floor + 1
  else floor + floor % 2

/-- The exponent of the last place that double precision keeps of a positive quotient: 53 bits,
and none below 2 to the power -1074. -/
def lastPlace (num den : Nat) : Int :=
  let guess : Int := (num.log2 : Int) - den.log2
  let reached : Bool :=
    if 0 ≤ guess then decide (den <<< guess.toNat ≤ num)
    else decide (den ≤ num <<< (-guess).toNat)
  max ((if reached then guess else guess - 1) - 52) (-1074)

/-- The number of double precision nearest to a positive quotient. -/
def nearestQuotient (num den : Nat) : Rat :=
  let place := lastPlace num den
  if 0 ≤ place then (roundDiv num (den <<< place.toNat) <<< place.toNat : Nat)
  else mkRat (roundDiv (num <<< (-place).toNat) den) (1 <<< (-place).toNat)

/-- The number of double precision nearest to a rational number. -/
def nearest (q : Rat) : Rat :=
  if q = 0 then 0
  else if q.num < 0 then -nearestQuotient q.num.natAbs q.den
  else nearestQuotient q.num.natAbs q.den

end Binary64

/-- A probability of double precision, as the rational number that it stands for. -/
structure Rate where
  value : Rat

namespace Rate

/-- The rate nearest to a rational number. -/
def ofRat (q : Rat) : Rate := ⟨Binary64.nearest q⟩

/-- The rate that never says yes. -/
def never : Rate := ⟨0⟩

/-- Whether the rate can say yes at all. -/
def isPositive (r : Rate) : Bool := decide (0 < r.value)

/-- Whether a random word makes the rate say yes. -/
def accepts (r : Rate) (word : UInt64) : Bool :=
  decide (mkRat (word >>> 11).toNat (1 <<< 53) < r.value)

/-- The rate in thousandths: the product of double precision, rounded to the nearest integer, a
tie going away from zero.  Where that leaves the range of integers, the end of the range stands. -/
def thousandths (r : Rate) : Int :=
  let product := Binary64.nearest (1000 * r.value)
  let rounded := if product < 0 then -(1 / 2 - product).floor else (product + 1 / 2).floor
  max Int64.minValue.toInt (min rounded Int64.maxValue.toInt)

end Rate

end Ratchet
