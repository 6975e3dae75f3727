import ExactFormula.Number.Multiplicity
import ExactFormula.Text.Digits

/-!
# Decimals of the working precision

A decimal is a significand times a power of ten.  The operations here round to
`workingDigits` significant digits, a half away from zero, and leave no zero at
the end of a significand.
-/

namespace ExactFormula

/-- The number `significand * 10 ^ exponent`. -/
structure Decimal where
  /-- The digits, with the sign. -/
  significand : Int
  /-- The power of ten. -/
  exponent : Int
  deriving DecidableEq, Repr

namespace Decimal

/-- The number of significant digits that rounding keeps. -/
def workingDigits : Nat := 50

/-- The value of a decimal. -/
def toRat (x : Decimal) : Rat :=
  x.significand * (10 : Rat) ^ x.exponent

/-- The decimal of a significand and an exponent, with the zeros at its end removed. -/
def normalized (significand exponent : Int) : Decimal :=
  if significand = 0 then ⟨0, 0⟩
  else
    let tens := Multiplicity.of 10 significand.natAbs
    ⟨significand.sign * tens.rest, exponent + tens.count⟩

/-- Round a significand to the working digits, a half away from zero. -/
def rounded (significand exponent : Int) : Decimal :=
  let size := significand.natAbs
  let excess := Digits.count size - workingDigits
  let unit := Nat.pow 10 excess
  let kept := (2 * size + unit) / (2 * unit)
  normalized (significand.sign * kept) (exponent + excess)

/-- The rounded product. -/
def mul (x y : Decimal) : Decimal :=
  rounded (x.significand * y.significand) (x.exponent + y.exponent)

/--
The quotient by a divisor other than zero.  A quotient of the significands
that comes out even is kept as it is.  Otherwise it is carried on to the
working digits, or to one digit more when the first significand is the smaller
one, and the last digit is rounded.
-/
def div (x y : Decimal) : Decimal :=
  let dividend := x.significand.natAbs
  let divisor := y.significand.natAbs
  let sign := x.significand.sign * y.significand.sign
  let exponent := x.exponent - y.exponent
  let whole := dividend / divisor
  let left := dividend % divisor
  if left = 0 then normalized (sign * whole) exponent
  else
    let shift :=
      if whole = 0 then Digits.count divisor + workingDigits - Digits.count left
      else workingDigits - Digits.count whole
    let scaled := left * Nat.pow 10 shift
    let digits := whole * Nat.pow 10 shift + scaled / divisor
    let roundsUp := divisor ≤ 2 * (scaled % divisor)
    normalized (sign * (if roundsUp then digits + 1 else digits)) (exponent - shift)

/-- A rational number as the quotient of its rounded numerator and denominator. -/
def ofRat (x : Rat) : Decimal :=
  div (rounded x.num 0) (rounded x.den 0)

end Decimal
end ExactFormula
