import ExactFormula.Binary64.Basic
import ExactFormula.Number.Places

/-!
# Decimals of binary values

Every finite value is the nearest one to a whole interval of numbers.  Its
shortest decimal is the one with the fewest digits in that interval, and the
nearest to the value among those.  A decimal with a fixed number of places is
the exact value rounded to the last place, a tie to the even digit; its sign is
written even where every digit is zero.
-/

namespace ExactFormula
namespace Binary64

/-- The greatest `e` for which `10 ^ e` is at most a positive rational number. -/
def decimalOrder (x : Rat) : Int :=
  if 1 ≤ x then (Digits.count x.floor.natAbs : Int) - 1
  else
    let inverse := x⁻¹
    let order : Int := (Digits.count inverse.floor.natAbs : Int) - 1
    if inverse = (10 : Rat) ^ order then -order else -order - 1

/-- The numbers that round to one value; both ends belong to it or neither does. -/
structure Interval where
  /-- The lower end. -/
  lower : Rat
  /-- The upper end. -/
  upper : Rat
  /-- Whether the ends belong to the interval. -/
  closed : Bool

/-- Membership in an interval. -/
def Interval.contains (interval : Interval) (x : Rat) : Bool :=
  if interval.closed then interval.lower ≤ x && x ≤ interval.upper
  else interval.lower < x && x < interval.upper

/--
The numbers that round to `significand * 2 ^ exponent`.  Each end lies half way
to the next value, and the value below a power of two is only half as far away.
-/
def roundingInterval (significand : Nat) (exponent : Int) : Interval :=
  let value := magnitude significand exponent
  let gap := (2 : Rat) ^ exponent
  let below := if significand = leastFull ∧ leastExponent < exponent then gap / 4 else gap / 2
  ⟨value - below, value + gap / 2, significand % 2 = 0⟩

/--
The neighbours of a value on the grid of multiples of `10 ^ exponent`: the one
in the interval, and of two the nearer one, the upper one on a tie.
-/
def onGrid?
    (interval : Interval)
    (value : Rat)
    (exponent : Int) :
    Option Rat :=
  let unit := (10 : Rat) ^ exponent
  let steps : Int := (value / unit).floor
  let lower : Rat := steps * unit
  let upper : Rat := lower + unit
  match interval.contains lower, interval.contains upper with
  | true, true => some (if value - lower < upper - value then lower else upper)
  | true, false => some lower
  | false, true => some upper
  | false, false => none

/-- The largest number of digits that a shortest decimal needs. -/
def mostDigits : Nat := 17

/-- The shortest decimal of a finite value, as a number. -/
def shortest (significand : Nat) (exponent : Int) : Rat :=
  if significand = 0 then 0
  else
    let value := magnitude significand exponent
    let interval := roundingInterval significand exponent
    let order := decimalOrder value
    let found := (List.range mostDigits).findSome? fun (places : Nat) =>
      onGrid? interval value (order - places)
    found.getD value

/-- The text of a value with a fixed number of decimal places. -/
def fixedText (x : Binary64) (places : Nat) : String :=
  match x with
  | nan => "NaN"
  | infinite negative => if negative then "-inf" else "inf"
  | finite negative significand exponent =>
      let size := magnitude significand exponent
      let units := roundQuotient (size.num.natAbs * Nat.pow 10 places) size.den
      let digits := Number.withPoint (Digits.ofNat units) places
      String.ofList (if negative then '-' :: digits else digits)

end Binary64
end ExactFormula
