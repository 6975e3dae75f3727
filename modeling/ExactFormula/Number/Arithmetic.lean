import ExactFormula.Decimal.FixedPoint
import ExactFormula.Number.Failure

/-!
# Arithmetic and order of rational numbers

Quotients and integer powers are exact.  A power with a fractional exponent is
computed from a positive base to the working precision.  Numbers are compared
and sorted by their value.
-/

namespace ExactFormula
namespace Number

/-- The order of two numbers. -/
def compare (x y : Rat) : Ordering :=
  if x < y then .lt else if x = y then .eq else .gt

/-- Numbers in ascending order. -/
def sort (numbers : List Rat) : List Rat :=
  numbers.mergeSort (· ≤ ·)

/-- The exact quotient; a zero divisor is a failure. -/
def divide (x y : Rat) : Except Failure Rat :=
  if y = 0 then .error .divisionByZero else .ok (x / y)

/--
The greatest integer that is at most a number.  Integer division drops the
fraction, which is one too many for a negative number that has one.
-/
def floor (x : Rat) : Int :=
  let quotient := x.num.tdiv x.den
  let remainder := x.num.tmod x.den
  if remainder ≠ 0 ∧ x < 0 then quotient - 1 else quotient

/-- The largest size of an integer exponent whose power is computed. -/
def largestExponent : Nat := 100000

/--
The power `x ^ y`.  An exponent of zero and a base of one give one whatever the
other number is; after that a base of zero gives zero for every positive
exponent and none for a negative one.  Every other integer exponent gives the
exact power up to `largestExponent`, and a fractional exponent asks for a
positive base.
-/
def power (x y : Rat) : Except Failure Rat :=
  if y = 0 ∨ x = 1 then .ok 1
  else if x = 0 then
    if y < 0 then .error .divisionByZero else .ok 0
  else if y.den = 1 then
    if y.num.natAbs ≤ largestExponent then .ok (x ^ y.num) else .error .overflow
  else if x < 0 then .error (.outsideDomain .fractionalPowerOfNegative)
  else .ok (Decimal.power (Decimal.ofRat x) (Decimal.ofRat y)).toRat

end Number
end ExactFormula
