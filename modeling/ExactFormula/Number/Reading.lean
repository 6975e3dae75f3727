import ExactFormula.Json.Basic
import ExactFormula.Number.Arithmetic
import ExactFormula.Number.Places
import ExactFormula.Text.Blank

/-!
# Reading numbers

A decimal is an optional sign, digits with at most one point among or beside
them, and an optional power of ten.  A number is a decimal, or two decimals
with a slash between them, and blanks around each are skipped.  Reading is
exact.  In JSON a number is kept as a string of its exact text.
-/

namespace ExactFormula
namespace Number

/-- The largest size of a power of ten in a written number. -/
def largestWrittenExponent : Nat := 10000

/-- Take a sign off the front of a text; the flag says whether it was a minus. -/
def takeSign : List Char → Bool × List Char
  | '-' :: rest => (true, rest)
  | '+' :: rest => (false, rest)
  | text => (false, text)

/-- A nonempty list of digits with an optional sign in front. -/
def readInteger? (text : List Char) : Option Int :=
  let (negative, digits) := takeSign text
  if digits ≠ [] ∧ digits.all Char.isDigit then
    let magnitude : Int := Digits.toNat digits
    some (if negative then -magnitude else magnitude)
  else none

/-- A written power of ten that is small enough to be used. -/
def readExponent? (text : List Char) : Option Int :=
  (readInteger? text).filter fun exponent =>
    exponent.natAbs ≤ largestWrittenExponent

/--
The digits before the power of ten: their value without the point, and the
number of them that stand after it.
-/
def readMantissa? (text : List Char) : Option (Int × Nat) :=
  let (negative, unsigned) := takeSign text
  let (whole, fraction) := (Text.cutAt (· = '.') unsigned).getD (unsigned, [])
  if whole ++ fraction ≠ [] ∧ (whole ++ fraction).all Char.isDigit then
    let magnitude : Int := Digits.toNat (whole ++ fraction)
    some (if negative then -magnitude else magnitude, fraction.length)
  else none

/-- A letter that separates a power of ten from the digits before it. -/
def isExponentMark (c : Char) : Bool :=
  c = 'e' || c = 'E'

/-- A decimal; its value is the digits times the power of ten, exactly. -/
def readDecimal? (text : List Char) : Option Rat :=
  match Text.cutAt isExponentMark text with
  | none => do
      let (significand, places) ← readMantissa? text
      pure (significand * (10 : Rat) ^ (-(places : Int)))
  | some (mantissa, written) => do
      let exponent ← readExponent? written
      let (significand, places) ← readMantissa? mantissa
      pure (significand * (10 : Rat) ^ (exponent - places))

/-- Read a text that has no blanks at its ends. -/
def readTrimmed (text : List Char) : Except Failure Rat :=
  let malformed := Failure.malformed (String.ofList text)
  match Text.cutAt (· = '/') text with
  | none =>
      match readDecimal? text with
      | some value => .ok value
      | none => .error malformed
  | some (numerator, denominator) =>
      match readDecimal? (Text.trim numerator), readDecimal? (Text.trim denominator) with
      | some x, some y => divide x y
      | _, _ => .error malformed

/-- Read a number, with blanks allowed at its ends. -/
def read (text : String) : Except Failure Rat :=
  readTrimmed (Text.trim text.toList)

/-! ## Numbers in JSON -/

/-- The JSON text of a number. -/
def jsonText (x : Rat) : String :=
  "\"" ++ exactText x ++ "\""

/-- Read a number from the JSON text of a string. -/
def readJson? (text : String) : Option Rat := do
  let string ← (← Json.parse? text.toList).text?
  (read string).toOption

end Number
end ExactFormula
