import ExactFormula.Binary64.Decimals
import ExactFormula.Binary64.Logarithm
import ExactFormula.Number.Arithmetic

/-!
# Numbers and binary values

The binary value of a rational number, the rational number of a binary value,
and the text of a number with a given count of significant figures, which is
written from its binary value.
-/

namespace ExactFormula
namespace Number

/-- The most decimal places with which a number is rounded to binary directly. -/
def directPlaces : Nat := 40

/-- The largest power of ten by which a binary value is scaled. -/
def largestScale : Nat := 308

/-- The leading 53 bits of a significand, cut off downwards, as a binary value. -/
def leadingBits (significand : Int) : Binary64 :=
  let bits := Nat.log2 significand.natAbs + 1
  if bits ≤ 53 then Binary64.ofRat significand
  else
    let extra := bits - 53
    Binary64.ofRat ((significand / Nat.pow 2 extra : Int)) *
      Binary64.power (Binary64.ofRat 2) extra

/-- A decimal in binary arithmetic; there is no value when its exponent is too large. -/
def scaleToBinary? (x : Decimal) : Option Binary64 :=
  let significand := leadingBits x.significand
  if x.exponent.natAbs ≤ largestScale then
    let scale := Binary64.power Binary64.ten x.exponent.natAbs
    let value :=
      if x.exponent = 0 then significand
      else if 0 < x.exponent then significand * scale
      else significand / scale
    if value.isFinite then some value else none
  else none

/--
The binary value of a number.  One with few decimal places is rounded once;
any other goes through its decimal of the working precision.  A number that is
too large has none.
-/
def toBinary? (x : Rat) : Option Binary64 :=
  let direct := (decimalPlaces? x).any (· ≤ directPlaces)
  if direct then
    let value := Binary64.ofRat x
    if value.isFinite then some value else none
  else scaleToBinary? (Decimal.ofRat x)

/-- The number that the shortest decimal of a binary value writes. -/
def ofBinary : Binary64 → Except Failure Rat
  | .nan => .error (.outsideDomain .notANumber)
  | .infinite negative => .error (.outsideDomain (.infinite negative))
  | .finite negative significand exponent =>
      let size := Binary64.shortest significand exponent
      .ok (if negative then -size else size)

/-- The least power of ten that is written without an exponent. -/
def leastPositional : Int := -3

/-- The largest power of ten that is written without an exponent. -/
def largestPositional : Int := 4

/--
The text of a number with a count of significant figures.  It stands without
an exponent between `leastPositional` and `largestPositional`, and otherwise as
one digit, a fraction, and a power of ten.  A number without a binary value is
written exactly.
-/
def significantText (x : Rat) (figures : Nat) : String :=
  if x = 0 then "0"
  else
    match toBinary? x with
    | some (.finite negative significand exponent) =>
        let value := Binary64.finite negative significand exponent
        let figures := max figures 1
        let order := Binary64.floorLogTen significand exponent
        if leastPositional ≤ order ∧ order ≤ largestPositional then
          value.fixedText ((figures : Int) - order - 1).toNat
        else
          let mantissa := value / Binary64.power Binary64.ten order
          mantissa.fixedText (figures - 1) ++ "e" ++ integerText order
    | _ => exactText x

end Number
end ExactFormula
