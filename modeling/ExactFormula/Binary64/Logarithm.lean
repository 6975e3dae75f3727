import ExactFormula.Binary64.Basic
import ExactFormula.Decimal.FixedPoint

/-!
# Logarithm to base ten of binary values

The logarithm of `m * 2 ^ k` is summed in binary arithmetic from the logarithm
of `m` and from `k` times the logarithm of two, whose high bits and low bits
are two constants.  Next to a power of ten the sum may round up to an integer,
and it does so for exactly the values for which this formula does.
-/

namespace ExactFormula
namespace Binary64

/-- The inverse of the natural logarithm of ten. -/
def inverseLogTen : Binary64 := ofBits 0x3FDBCB7B1526E50E

/-- The high bits of the logarithm of two to base ten. -/
def logTwoHigh : Binary64 := ofBits 0x3FD34413509F6000

/-- What is missing from `logTwoHigh`. -/
def logTwoLow : Binary64 := ofBits 0x3D59FEF311F12B36

/-- The natural logarithm of a fraction between a half and two, rounded once. -/
def naturalLog (numerator denominator : Nat) : Binary64 :=
  let fixed := FixedPoint.logOfRatio numerator denominator
  round (fixed < 0) fixed.natAbs (Nat.pow 10 FixedPoint.places)

/--
The logarithm to base ten of `significand * 2 ^ exponent`.  The significand is
scaled to at least one and below two, and to half of that for a value below one.
-/
def logTenOf (significand : Nat) (exponent : Int) : Binary64 :=
  let bits := Nat.log2 significand
  let order := exponent + bits
  let scale := if order < 0 then bits + 1 else bits
  let twos := ofRat (if order < 0 then order + 1 else order : Int)
  let log := naturalLog significand (Nat.pow 2 scale)
  (twos * logTwoLow + inverseLogTen * log) + twos * logTwoHigh

/-- The logarithm to base ten of a finite value other than zero, rounded down. -/
def floorLogTen (significand : Nat) (exponent : Int) : Int :=
  match (logTenOf significand exponent).toRat? with
  | some log => log.floor
  | none => 0

end Binary64
end ExactFormula
