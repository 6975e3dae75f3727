import ExactFormula.Number.Multiplicity
import ExactFormula.Text.Digits

/-!
# Decimal places and exact texts

How many decimal places a rational number needs, its text with a fixed number
of places, and its exact text: a decimal where one exists and a fraction in
lowest terms otherwise.
-/

namespace ExactFormula
namespace Number

/--
The least number of decimal places that write a number exactly.  There is one
when the denominator has no prime factor besides two and five, and it is the
larger of their two multiplicities.
-/
def decimalPlaces? (x : Rat) : Option Nat :=
  let twos := Multiplicity.of 2 x.den
  let fives := Multiplicity.of 5 twos.rest
  if fives.rest = 1 then some (max twos.count fives.count) else none

/-- The size of a number in units of the last of `places` decimals, a half rounded up. -/
def unitsOf (x : Rat) (places : Nat) : Nat :=
  (2 * (x.num.natAbs * Nat.pow 10 places) + x.den) / (2 * x.den)

/-- Digits with a point before the last `places` of them, and one digit or more in front. -/
def withPoint
    (digits : List Char)
    (places : Nat) :
    List Char :=
  if places = 0 then digits
  else
    let padded := Digits.padded (places + 1) digits
    let whole := padded.length - places
    padded.take whole ++ '.' :: padded.drop whole

/--
The text with a fixed number of decimal places, a half rounded away from zero.
A number that rounds to zero has no sign.
-/
def fixedText (x : Rat) (places : Nat) : String :=
  let units := unitsOf x places
  let digits := withPoint (Digits.ofNat units) places
  String.ofList (if x < 0 ∧ units ≠ 0 then '-' :: digits else digits)

/-- An integer in decimal digits, with a minus sign before a negative one. -/
def integerText (n : Int) : String :=
  let digits := Digits.ofNat n.natAbs
  String.ofList (if n < 0 then '-' :: digits else digits)

/-- The exact text: a decimal if there is one, and otherwise the fraction in lowest terms. -/
def exactText (x : Rat) : String :=
  match decimalPlaces? x with
  | some places => fixedText x places
  | none => integerText x.num ++ "/" ++ integerText x.den

/-- The number of places that are shown of a number with no finite expansion. -/
def shownPlaces : Nat := 10

/-- The text for readers: exact if a decimal can be, and otherwise rounded. -/
def displayText (x : Rat) : String :=
  fixedText x ((decimalPlaces? x).getD shownPlaces)

/-- The digits of a decimal text: what is left without a minus sign in front and the point. -/
def digitsOf (text : List Char) : List Char :=
  (text.dropWhile (· = '-')).filter (· ≠ '.')

/--
The number of significant digits in the exact text of a number, if that is a
decimal.  Zeros at the two ends are not significant, and zero needs one digit.
-/
def significantDigits? (x : Rat) : Option Nat :=
  (decimalPlaces? x).map fun _ =>
    max 1 (Digits.significant (digitsOf (exactText x).toList)).length

end Number
end ExactFormula
