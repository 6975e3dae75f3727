/-!
# Binary floating point with 53 bits

The values of the 64-bit binary format and its arithmetic.  Every operation
gives the exact result rounded once, to the nearest value and to the even one
of two that are equally near.
-/

namespace ExactFormula

/--
A value of the format.  A finite one is `significand * 2 ^ exponent` with its
sign; rounding gives a significand below `2 ^ 53` and an exponent that is at
least `-1074`, and a significand of `2 ^ 52` or more unless the exponent is the
least one.
-/
inductive Binary64
  /-- No number. -/
  | nan
  /-- An infinity. -/
  | infinite (negative : Bool)
  /-- A finite value; zero has a sign too. -/
  | finite (negative : Bool) (significand : Nat) (exponent : Int)
  deriving DecidableEq, Repr

namespace Binary64

/-- The least exponent of a finite value. -/
def leastExponent : Int := -1074

/-- The largest exponent of a finite value. -/
def largestExponent : Int := 971

/-- The least significand of full length, which is `2 ^ 52`. -/
def leastFull : Nat := 0x10000000000000

/-- The bit of the sign, which is `2 ^ 63`. -/
def signBit : Nat := 0x8000000000000000

/-- A quotient of natural numbers rounded to the nearest one, a tie to the even one. -/
def roundQuotient (numerator denominator : Nat) : Nat :=
  let whole := numerator / denominator
  let left := 2 * (numerator % denominator)
  if denominator < left ∨ denominator = left ∧ whole % 2 = 1 then whole + 1 else whole

/-- The quotient of a fraction by `2 ^ exponent`, rounded to a natural number. -/
def roundScaled (numerator denominator : Nat) (exponent : Int) : Nat :=
  if 0 ≤ exponent then roundQuotient numerator (denominator * Nat.pow 2 exponent.toNat)
  else roundQuotient (numerator * Nat.pow 2 (-exponent).toNat) denominator

/-- The greatest `e` for which `2 ^ e` is at most the fraction of two positive numbers. -/
def binaryOrder (numerator denominator : Nat) : Int :=
  let estimate : Int := (Nat.log2 numerator : Int) - Nat.log2 denominator
  let reached :=
    if 0 ≤ estimate then denominator * Nat.pow 2 estimate.toNat ≤ numerator
    else denominator ≤ numerator * Nat.pow 2 (-estimate).toNat
  if reached then estimate else estimate - 1

/-- The value nearest to a fraction with the given sign. -/
def round
    (negative : Bool)
    (numerator denominator : Nat) :
    Binary64 :=
  if numerator = 0 then .finite negative 0 leastExponent
  else
    let exponent := max leastExponent (binaryOrder numerator denominator - 52)
    let significand := roundScaled numerator denominator exponent
    let carried := significand = 2 * leastFull
    let exponent := if carried then exponent + 1 else exponent
    let significand := if carried then leastFull else significand
    if largestExponent < exponent then .infinite negative
    else .finite negative significand exponent

/-- The value nearest to a rational number. -/
def ofRat (x : Rat) : Binary64 :=
  round (x < 0) x.num.natAbs x.den

/-- The size of a finite value. -/
def magnitude (significand : Nat) (exponent : Int) : Rat :=
  significand * (2 : Rat) ^ exponent

/-- A finite value as a rational number. -/
def toRat? : Binary64 → Option Rat
  | finite negative significand exponent =>
      let size := magnitude significand exponent
      some (if negative then -size else size)
  | _ => none

/-- A finite value. -/
def isFinite : Binary64 → Bool
  | finite _ _ _ => true
  | _ => false

/-- The value without its sign. -/
def abs : Binary64 → Binary64
  | nan => nan
  | infinite _ => infinite false
  | finite _ significand exponent => finite false significand exponent

/-- The rounded sum. -/
protected def add : Binary64 → Binary64 → Binary64
  | nan, _ => nan
  | _, nan => nan
  | infinite a, infinite b => if a = b then infinite a else nan
  | infinite a, _ => infinite a
  | _, infinite b => infinite b
  | finite a m d, finite b n e =>
      let sum :=
        (if a then -magnitude m d else magnitude m d) +
          (if b then -magnitude n e else magnitude n e)
      if sum = 0 then finite (a && b) 0 leastExponent else ofRat sum

/-- The rounded product. -/
protected def mul : Binary64 → Binary64 → Binary64
  | nan, _ => nan
  | _, nan => nan
  | infinite a, infinite b => infinite (a ^^ b)
  | infinite a, finite b n _ => if n = 0 then nan else infinite (a ^^ b)
  | finite a m _, infinite b => if m = 0 then nan else infinite (a ^^ b)
  | finite a m d, finite b n e =>
      let product := magnitude m d * magnitude n e
      round (a ^^ b) product.num.natAbs product.den

/-- The rounded quotient. -/
protected def div : Binary64 → Binary64 → Binary64
  | nan, _ => nan
  | _, nan => nan
  | infinite _, infinite _ => nan
  | infinite a, finite b _ _ => infinite (a ^^ b)
  | finite a _ _, infinite b => finite (a ^^ b) 0 leastExponent
  | finite a m d, finite b n e =>
      if n = 0 then
        if m = 0 then nan else infinite (a ^^ b)
      else
        let quotient := magnitude m d / magnitude n e
        round (a ^^ b) quotient.num.natAbs quotient.den

instance : Add Binary64 := ⟨Binary64.add⟩
instance : Mul Binary64 := ⟨Binary64.mul⟩
instance : Div Binary64 := ⟨Binary64.div⟩

/-- The value one. -/
def one : Binary64 := ofRat 1

/-- The value ten. -/
def ten : Binary64 := ofRat 10

/--
Multiply `result` by the power of `base` that the last `bits` binary digits of
`exponent` give, one squaring for each digit but the last.
-/
def powerByBits : Nat → Binary64 → Binary64 → Nat → Binary64
  | 0, result, _, _ => result
  | bits + 1, result, base, exponent =>
      let result := if exponent % 2 = 1 then result * base else result
      powerByBits bits result (base * base) (exponent / 2)

/-- An integer power by repeated squaring; a negative one is the inverse of the positive one. -/
def power (base : Binary64) (exponent : Int) : Binary64 :=
  let size := exponent.natAbs
  let positive := powerByBits (Nat.log2 size + 1) one base size
  if exponent < 0 then one / positive else positive

/-- The 64 bits of a value: sign, exponent and fraction. -/
def toBits : Binary64 → Nat
  | nan => 0x7FF8000000000000
  | infinite negative => (if negative then signBit else 0) + 0x7FF0000000000000
  | finite negative significand exponent =>
      let sign := if negative then signBit else 0
      if significand < leastFull then sign + significand
      else sign + (exponent - leastExponent + 1).toNat * leastFull + (significand - leastFull)

/-- The value of 64 bits. -/
def ofBits (bits : Nat) : Binary64 :=
  let negative : Bool := bits / signBit % 2 = 1
  let order : Nat := bits / leastFull % 2048
  let fraction : Nat := bits % leastFull
  if order = 2047 then
    if fraction = 0 then infinite negative else nan
  else if order = 0 then finite negative fraction leastExponent
  else finite negative (leastFull + fraction) ((order : Int) - 1 + leastExponent)

end Binary64
end ExactFormula
