import ExactFormula.Decimal.Basic

/-!
# Logarithm, exponential and power in fixed point

Logarithms and exponentials of numbers that are written as integers in units of
`10 ^ (-places)`.  The places leave more than a hundred digits beyond those
that any caller keeps, so the error of the series and of its truncated terms
never reaches a digit that is shown.  A decimal is brought into fixed point, and
the result is rounded once.
-/

namespace ExactFormula
namespace FixedPoint

/-- The number of decimal places of a fixed-point number. -/
def places : Nat := 170

/-- One, in fixed point. -/
def one : Int := Nat.pow 10 places

/-- The number of terms that are summed; the later ones lie below the last place. -/
def terms : Nat := 300

/-- The sum of `power / odd`, where `power` shrinks by `square` and `odd` grows by two. -/
def oddSum
    (square : Int) :
    Nat → Int → Int → Int
  | 0, _, _ => 0
  | count + 1, power, odd =>
      power / odd + oddSum square count (power * square / one) (odd + 2)

/-- The inverse hyperbolic tangent of a fraction between `-1 / 3` and `1 / 3`. -/
def artanh (numerator denominator : Int) : Int :=
  let z := numerator * one / denominator
  oddSum (z * z / one) terms z 1

/-- The natural logarithm of a fraction between a half and two. -/
def logOfRatio (numerator denominator : Int) : Int :=
  2 * artanh (numerator - denominator) (numerator + denominator)

/-- The natural logarithm of two. -/
def logTwo : Int := 2 * artanh 1 3

/-- The natural logarithm of ten, which is that of eight and of five fourths. -/
def logTen : Int := 3 * logTwo + logOfRatio 5 4

/-- The natural logarithm of `significand * 10 ^ exponent`, for a positive significand. -/
def log (significand : Nat) (exponent : Int) : Int :=
  let binary := Nat.log2 significand
  binary * logTwo + logOfRatio significand (Nat.pow 2 binary) + exponent * logTen

/-- The sum of the terms that begin with `term` and go on by `x / index`. -/
def powerSum
    (x : Int) :
    Nat → Int → Int → Int
  | 0, _, _ => 0
  | count + 1, term, index =>
      term + powerSum x count (term * x / (one * index)) (index + 1)

/-- The exponential of a number near zero. -/
def exp (x : Int) : Int :=
  powerSum x terms one 1

end FixedPoint

namespace Decimal

/-- The decimal of a fixed-point number times a power of ten. -/
def ofFixedPoint (x : Int) (exponent : Int) : Decimal :=
  rounded x (exponent - FixedPoint.places)

/-- A decimal in fixed point, rounded down. -/
def toFixedPoint (x : Decimal) : Int :=
  let shift := x.exponent + FixedPoint.places
  if 0 ≤ shift then x.significand * Nat.pow 10 shift.toNat
  else x.significand / Nat.pow 10 (-shift).toNat

/-- The natural logarithm of a positive decimal. -/
def log (x : Decimal) : Decimal :=
  ofFixedPoint (FixedPoint.log x.significand.natAbs x.exponent) 0

/-- The exponential: a power of ten, times the exponential of what is left near zero. -/
def exp (x : Decimal) : Decimal :=
  let fixed := x.toFixedPoint
  let tens := (2 * fixed + FixedPoint.logTen) / (2 * FixedPoint.logTen)
  ofFixedPoint (FixedPoint.exp (fixed - tens * FixedPoint.logTen)) tens

/-- The power of a positive decimal: the exponential of exponent times logarithm. -/
def power (x y : Decimal) : Decimal :=
  exp (mul (log x) y)

end Decimal
end ExactFormula
