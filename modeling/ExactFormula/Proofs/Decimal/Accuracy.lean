import ExactFormula.Decimal.Basic
import ExactFormula.Proofs.Number.Multiplicity
import ExactFormula.Proofs.Text.Digits
import Mathlib.Algebra.Order.Field.Power
import Mathlib.Data.Nat.Cast.Field
import Mathlib.Data.Sign.Defs
import Mathlib.Tactic.FieldSimp
import Mathlib.Tactic.Linarith
import Mathlib.Tactic.NormNum
import Mathlib.Tactic.Positivity

/-!
# The accuracy of working precision

Each rounding changes a number by half a unit of its last working digit at most, which
is a small part of the number.  The decimal of a rational number has three roundings:
those of its numerator, of its denominator and of their quotient.
-/

namespace ExactFormula
namespace Decimal

/-! ## Signs and zeros at the end -/

theorem eq_sign_mul_natAbs (n : Int) : (n : Rat) = n.sign * (n.natAbs : Rat) := by
  rw [← Int.cast_natCast, ← Int.cast_mul, Int.sign_mul_natAbs]

theorem inv_sign (n : Int) : (n.sign : Rat)⁻¹ = n.sign := by
  obtain sign | sign | sign := Int.sign_trichotomy n <;> rw [sign] <;> norm_num

/-- Removing zeros at the end does not change the number. -/
theorem toRat_normalized (significand exponent : Int) :
    (normalized significand exponent).toRat = significand * (10 : Rat) ^ exponent := by
  unfold normalized
  by_cases zero : significand = 0
  · rw [if_pos zero, zero]
    simp [toRat]
  · have parts : significand =
        significand.sign * ((10 : Int) ^ (Multiplicity.of 10 significand.natAbs).count *
          (Multiplicity.of 10 significand.natAbs).rest) := by
      conv_lhs => rw [← Int.sign_mul_natAbs significand]
      congr 1
      exact_mod_cast (Multiplicity.pow_count_mul_rest 10 significand.natAbs).symm
    rw [if_neg zero, toRat, zpow_add₀ (by norm_num), zpow_natCast]
    conv_rhs => rw [parts]
    push_cast
    ring

/-- Removing zeros at the end does not make the significand larger. -/
theorem natAbs_significand_normalized_le (significand exponent : Int) :
    (normalized significand exponent).significand.natAbs ≤ significand.natAbs := by
  unfold normalized
  by_cases zero : significand = 0
  · rw [if_pos zero]
    exact Nat.zero_le _
  · have parts := Multiplicity.pow_count_mul_rest 10 significand.natAbs
    rw [if_neg zero, Int.natAbs_mul, Int.natAbs_sign_of_ne_zero zero, one_mul, Int.natAbs_natCast]
    conv_rhs => rw [← parts]
    exact Nat.le_mul_of_pos_left _ (Nat.pow_pos (by decide))

theorem natAbs_sign_le (n : Int) : n.sign.natAbs ≤ 1 := by
  rw [Int.natAbs_sign]
  split <;> decide

/-- Neither a sign nor the removal of zeros makes digits larger. -/
theorem natAbs_significand_normalized_mul_le
    {sign : Int}
    (unit : sign.natAbs ≤ 1)
    (digits : Nat)
    (exponent : Int) :
    (normalized (sign * digits) exponent).significand.natAbs ≤ digits :=
  calc (normalized (sign * digits) exponent).significand.natAbs
      ≤ (sign * digits).natAbs := natAbs_significand_normalized_le _ _
    _ = sign.natAbs * digits := by rw [Int.natAbs_mul, Int.natAbs_natCast]
    _ ≤ 1 * digits := Nat.mul_le_mul_right _ unit
    _ = digits := Nat.one_mul _

/-- A decimal is zero exactly when its significand is. -/
theorem toRat_eq_zero_iff {x : Decimal} : x.toRat = 0 ↔ x.significand = 0 := by
  have power : (10 : Rat) ^ x.exponent ≠ 0 := zpow_ne_zero _ (by norm_num)
  rw [toRat, mul_eq_zero, or_iff_left power, Int.cast_eq_zero]

theorem abs_toRat (x : Decimal) :
    |x.toRat| = x.significand.natAbs * (10 : Rat) ^ x.exponent := by
  have power : (0 : Rat) < 10 ^ x.exponent := by positivity
  rw [toRat, abs_mul, abs_of_pos power, Nat.cast_natAbs, Int.cast_abs]

/-! ## One rounding -/

/-- The part of a number by which a rounding to the working digits can change it. -/
def halfUnit : Rat := 1 / 2 / 10 ^ (workingDigits - 1)

theorem halfUnit_pos : 0 < halfUnit := by
  unfold halfUnit
  positivity

/-- The second number is the first one up to half a unit of the last working digit. -/
def IsRounding (exact approximate : Rat) : Prop :=
  |approximate - exact| ≤ halfUnit * |exact|

theorem isRounding_refl (exact : Rat) : IsRounding exact exact := by
  rw [IsRounding, sub_self, abs_zero]
  exact mul_nonneg halfUnit_pos.le (abs_nonneg _)

/-- A common factor does not change the relative error. -/
theorem IsRounding.mul_left
    {exact approximate : Rat}
    (rounding : IsRounding exact approximate)
    (factor : Rat) :
    IsRounding (factor * exact) (factor * approximate) := by
  unfold IsRounding at *
  rw [← mul_sub, abs_mul, abs_mul]
  calc |factor| * |approximate - exact| ≤ |factor| * (halfUnit * |exact|) := by gcongr
    _ = halfUnit * (|factor| * |exact|) := by ring

/-- A rounding is a factor near one. -/
theorem IsRounding.exists_factor
    {exact approximate : Rat}
    (rounding : IsRounding exact approximate) :
    ∃ error, |error| ≤ halfUnit ∧ approximate = exact * (1 + error) := by
  unfold IsRounding at rounding
  by_cases zero : exact = 0
  · rw [zero, sub_zero, abs_zero, mul_zero, abs_nonpos_iff] at rounding
    exact ⟨0, by rw [abs_zero]; exact halfUnit_pos.le, by rw [rounding, zero, zero_mul]⟩
  · refine ⟨(approximate - exact) / exact, ?_, ?_⟩
    · rwa [abs_div, div_le_iff₀ (abs_pos.mpr zero)]
    · field_simp
      ring

/-- The quotient of two natural numbers, rounded to the nearest one, a half upwards. -/
def nearest (numerator denominator : Nat) : Nat :=
  (2 * numerator + denominator) / (2 * denominator)

section

variable {numerator denominator : Nat} (positive : 0 < denominator)

include positive

/-- The last digit of a division is rounded up when twice the remainder is the divisor or more. -/
theorem nearest_eq_ite :
    nearest numerator denominator =
      if denominator ≤ 2 * (numerator % denominator) then numerator / denominator + 1
      else numerator / denominator := by
  have below := Nat.mod_lt numerator positive
  have division : 2 * numerator + denominator =
      2 * denominator * (numerator / denominator) +
        (2 * (numerator % denominator) + denominator) := by
    conv_lhs => rw [← Nat.div_add_mod numerator denominator]
    ring
  rw [nearest, division, Nat.mul_add_div (Nat.mul_pos (by decide) positive)]
  split
  · congr 1
    exact Nat.div_eq_of_lt_le (by omega) (by omega)
  · exact congrArg (numerator / denominator + ·) (Nat.div_eq_of_lt (by omega))

/-- A quotient is rounded by a half at most. -/
theorem abs_nearest_sub_le :
    |(nearest numerator denominator : Rat) - numerator / denominator| ≤ 1 / 2 := by
  have divisor : (0 : Rat) < denominator := Nat.cast_pos.mpr positive
  have division := Nat.div_add_mod (2 * numerator + denominator) (2 * denominator)
  have below := Nat.mod_lt (2 * numerator + denominator) (show 0 < 2 * denominator by omega)
  rw [← nearest] at division
  have total : 2 * (denominator : Rat) * nearest numerator denominator +
      ((2 * numerator + denominator) % (2 * denominator) : Nat) = 2 * numerator + denominator := by
    exact_mod_cast division
  have left : (((2 * numerator + denominator) % (2 * denominator) : Nat) : Rat) <
      2 * denominator := by
    exact_mod_cast below
  have nonnegative : (0 : Rat) ≤ ((2 * numerator + denominator) % (2 * denominator) : Nat) :=
    Nat.cast_nonneg _
  rw [abs_le, neg_le_sub_iff_le_add, sub_le_iff_le_add, div_le_iff₀ divisor,
    ← sub_le_iff_le_add', le_div_iff₀ divisor]
  constructor <;> linarith

/-- A quotient with all working digits in front of the point is rounded to these at least. -/
theorem isRounding_nearest (long : 10 ^ (workingDigits - 1) * denominator ≤ numerator) :
    IsRounding (numerator / denominator) (nearest numerator denominator) := by
  have divisor : (0 : Rat) < denominator := Nat.cast_pos.mpr positive
  have large : (10 : Rat) ^ (workingDigits - 1) ≤ numerator / denominator := by
    rw [le_div_iff₀ divisor]
    exact_mod_cast long
  have size : |(numerator : Rat) / denominator| = numerator / denominator :=
    abs_of_nonneg (by positivity)
  unfold IsRounding
  rw [size]
  calc |(nearest numerator denominator : Rat) - numerator / denominator|
      ≤ 1 / 2 := abs_nearest_sub_le positive
    _ = halfUnit * 10 ^ (workingDigits - 1) := by
      rw [halfUnit, div_mul_cancel₀]
      positivity
    _ ≤ halfUnit * (numerator / denominator) := by
      have := halfUnit_pos
      gcongr

theorem nearest_le {bound : Nat} (small : numerator ≤ bound * denominator) :
    nearest numerator denominator ≤ bound := by
  refine Nat.lt_succ_iff.mp ((Nat.div_lt_iff_lt_mul (by omega)).mpr ?_)
  linarith

end

/-! ## Rounded significands -/

/-- What `rounded` keeps of a significand. -/
theorem rounded_eq (significand exponent : Int) :
    rounded significand exponent =
      normalized
        (significand.sign *
          nearest significand.natAbs (10 ^ (Digits.count significand.natAbs - workingDigits)))
        (exponent + (Digits.count significand.natAbs - workingDigits : Nat)) := rfl

/-- A significand that is not too long is kept as it is, and any other has working digits. -/
theorem isRounding_nearest_excess (size : Nat) :
    IsRounding ((size : Rat) / (10 ^ (Digits.count size - workingDigits) : Nat))
      (nearest size (10 ^ (Digits.count size - workingDigits))) := by
  by_cases long : workingDigits < Digits.count size
  · have positive : 0 < size := by
      refine Nat.pos_of_ne_zero fun zero => ?_
      rw [zero] at long
      exact absurd long (by decide)
    have digits : workingDigits - 1 + (Digits.count size - workingDigits) =
        Digits.count size - 1 := by
      unfold workingDigits at long ⊢
      omega
    refine isRounding_nearest (Nat.pow_pos (by decide)) ?_
    rw [← pow_add, digits]
    exact Digits.pow_count_le positive
  · have same : nearest size 1 = size := by
      rw [nearest]
      omega
    rw [Nat.sub_eq_zero_of_le (not_lt.mp long), pow_zero, same, Nat.cast_one, div_one]
    exact isRounding_refl _

/-- Cutting a significand to the working digits is one rounding. -/
theorem isRounding_rounded (significand exponent : Int) :
    IsRounding (significand * (10 : Rat) ^ exponent) (rounded significand exponent).toRat := by
  have scaled := (isRounding_nearest_excess significand.natAbs).mul_left
    (significand.sign * (10 : Rat) ^
      (exponent + (Digits.count significand.natAbs - workingDigits : Nat)))
  rw [rounded_eq, toRat_normalized]
  convert scaled using 1
  · conv_lhs => rw [eq_sign_mul_natAbs]
    rw [zpow_add₀ (by norm_num), zpow_natCast]
    push_cast
    field_simp
  · push_cast
    ring

/-- A rounded significand has no more than the working digits, or is the next power of ten. -/
theorem natAbs_significand_rounded_le (significand exponent : Int) :
    (rounded significand exponent).significand.natAbs ≤ 10 ^ workingDigits := by
  rw [rounded_eq]
  refine (natAbs_significand_normalized_mul_le (natAbs_sign_le _) _ _).trans
    (nearest_le (Nat.pow_pos (by decide)) ?_)
  rw [← pow_add]
  refine (Digits.lt_pow_count _).le.trans (Nat.pow_le_pow_right (by decide) ?_)
  omega

/-! ## Quotients -/

/-- The number of places after the point to which `div` carries a division that leaves a rest. -/
def carried (dividend divisor : Nat) : Nat :=
  if dividend / divisor = 0 then
    Digits.count divisor + workingDigits - Digits.count (dividend % divisor)
  else workingDigits - Digits.count (dividend / divisor)

section

variable {dividend divisor : Nat}

/-- A division is carried so far that its quotient has all working digits. -/
theorem le_mul_pow_carried
    (positive : 0 < divisor)
    (inexact : dividend % divisor ≠ 0) :
    10 ^ (workingDigits - 1) * divisor ≤ dividend * 10 ^ carried dividend divisor := by
  unfold carried
  by_cases small : dividend / divisor = 0
  -- Without a whole part the rest is the dividend itself, with no more digits than the divisor.
  · have less : dividend < divisor := (Nat.div_eq_zero_iff_lt positive).mp small
    have left : dividend % divisor = dividend := Nat.mod_eq_of_lt less
    rw [left] at inexact ⊢
    have low := Digits.pow_count_le (Nat.pos_of_ne_zero inexact)
    have shorter := Digits.count_mono less.le
    rw [if_pos small]
    calc 10 ^ (workingDigits - 1) * divisor
        ≤ 10 ^ (workingDigits - 1) * 10 ^ Digits.count divisor :=
          Nat.mul_le_mul_left _ (Digits.lt_pow_count divisor).le
      _ ≤ 10 ^ (Digits.count dividend - 1) *
          10 ^ (Digits.count divisor + workingDigits - Digits.count dividend) := by
        rw [← pow_add, ← pow_add]
        refine Nat.pow_le_pow_right (by decide) ?_
        unfold workingDigits
        omega
      _ ≤ dividend * 10 ^ (Digits.count divisor + workingDigits - Digits.count dividend) :=
        Nat.mul_le_mul_right _ low
  · have low := Digits.pow_count_le (Nat.pos_of_ne_zero small)
    rw [if_neg small]
    calc 10 ^ (workingDigits - 1) * divisor
        ≤ 10 ^ (Digits.count (dividend / divisor) - 1) *
            10 ^ (workingDigits - Digits.count (dividend / divisor)) * divisor := by
          refine Nat.mul_le_mul_right _ ?_
          rw [← pow_add]
          refine Nat.pow_le_pow_right (by decide) ?_
          omega
      _ ≤ dividend / divisor *
          10 ^ (workingDigits - Digits.count (dividend / divisor)) * divisor := by gcongr
      _ = dividend / divisor * divisor *
          10 ^ (workingDigits - Digits.count (dividend / divisor)) := by ring
      _ ≤ dividend * 10 ^ (workingDigits - Digits.count (dividend / divisor)) :=
        Nat.mul_le_mul_right _ (Nat.div_mul_le_self ..)

/-- A division is not carried farther than to one digit more. -/
theorem mul_pow_carried_le
    (positive : 0 < divisor)
    (short : dividend ≤ 10 ^ workingDigits) :
    dividend * 10 ^ carried dividend divisor ≤ 10 ^ (workingDigits + 1) * divisor := by
  unfold carried
  by_cases small : dividend / divisor = 0
  · have less : dividend < divisor := (Nat.div_eq_zero_iff_lt positive).mp small
    have shorter := Digits.count_mono less.le
    have present := Digits.count_pos divisor
    rw [if_pos small, Nat.mod_eq_of_lt less]
    calc dividend * 10 ^ (Digits.count divisor + workingDigits - Digits.count dividend)
        ≤ 10 ^ Digits.count dividend *
            10 ^ (Digits.count divisor + workingDigits - Digits.count dividend) :=
          Nat.mul_le_mul_right _ (Digits.lt_pow_count dividend).le
      _ = 10 ^ (workingDigits + 1) * 10 ^ (Digits.count divisor - 1) := by
        rw [← pow_add, ← pow_add]
        congr 1
        unfold workingDigits
        omega
      _ ≤ 10 ^ (workingDigits + 1) * divisor :=
        Nat.mul_le_mul_left _ (Digits.pow_count_le positive)
  · rw [if_neg small]
    -- A whole part that is too long is not carried on, and then the dividend is the bound.
    by_cases long : workingDigits ≤ Digits.count (dividend / divisor)
    · rw [Nat.sub_eq_zero_of_le long, pow_zero, mul_one]
      exact short.trans ((Nat.pow_le_pow_right (by decide) (Nat.le_succ _)).trans
        (Nat.le_mul_of_pos_right _ positive))
    · have below : dividend ≤ 10 ^ Digits.count (dividend / divisor) * divisor :=
        ((Nat.div_lt_iff_lt_mul positive).mp (Digits.lt_pow_count _)).le
      calc dividend * 10 ^ (workingDigits - Digits.count (dividend / divisor))
          ≤ 10 ^ Digits.count (dividend / divisor) * divisor *
              10 ^ (workingDigits - Digits.count (dividend / divisor)) :=
            Nat.mul_le_mul_right _ below
        _ = 10 ^ (Digits.count (dividend / divisor) +
              (workingDigits - Digits.count (dividend / divisor))) * divisor := by
          rw [pow_add]
          ring
        _ ≤ 10 ^ (workingDigits + 1) * divisor := by
          refine Nat.mul_le_mul_right _ (Nat.pow_le_pow_right (by decide) ?_)
          omega

/-- The digits of the rest, after those of the whole part, are those of the carried division. -/
theorem nearest_carried
    (positive : 0 < divisor)
    (shift : Nat) :
    nearest (dividend * 10 ^ shift) divisor =
      if divisor ≤ 2 * (dividend % divisor * 10 ^ shift % divisor) then
        dividend / divisor * 10 ^ shift + dividend % divisor * 10 ^ shift / divisor + 1
      else dividend / divisor * 10 ^ shift + dividend % divisor * 10 ^ shift / divisor := by
  have division : dividend * 10 ^ shift =
      divisor * (dividend / divisor * 10 ^ shift) + dividend % divisor * 10 ^ shift := by
    conv_lhs => rw [← Nat.div_add_mod dividend divisor]
    ring
  rw [nearest_eq_ite positive, division, Nat.mul_add_mod, Nat.mul_add_div positive]

end

section

variable {x y : Decimal}

/-- What `div` makes of the significands. -/
theorem div_eq (divisor : y.significand ≠ 0) :
    div x y =
      if x.significand.natAbs % y.significand.natAbs = 0 then
        normalized
          (x.significand.sign * y.significand.sign *
            (x.significand.natAbs / y.significand.natAbs : Nat))
          (x.exponent - y.exponent)
      else
        normalized
          (x.significand.sign * y.significand.sign *
            nearest
              (x.significand.natAbs * 10 ^ carried x.significand.natAbs y.significand.natAbs)
              y.significand.natAbs)
          (x.exponent - y.exponent - carried x.significand.natAbs y.significand.natAbs) := by
  rw [nearest_carried (Int.natAbs_pos.mpr divisor)]
  rfl

/-- The digits of a quotient, which `div` keeps with the sign and the power of ten. -/
theorem exists_div_eq (divisor : y.significand ≠ 0) :
    ∃ quotient shift : Nat,
      div x y =
          normalized (x.significand.sign * y.significand.sign * quotient)
            (x.exponent - y.exponent - shift) ∧
        IsRounding
          ((x.significand.natAbs * 10 ^ shift : Nat) / (y.significand.natAbs : Rat)) quotient ∧
        (x.significand.natAbs ≤ 10 ^ workingDigits → quotient ≤ 10 ^ (workingDigits + 1)) := by
  have positive : 0 < y.significand.natAbs := Int.natAbs_pos.mpr divisor
  rw [div_eq divisor]
  by_cases even : x.significand.natAbs % y.significand.natAbs = 0
  · refine ⟨x.significand.natAbs / y.significand.natAbs, 0, ?_, ?_, fun short => ?_⟩
    · rw [if_pos even, Nat.cast_zero, sub_zero]
    · rw [pow_zero, mul_one, ← Nat.cast_div (Nat.dvd_of_mod_eq_zero even)
        (Nat.cast_ne_zero.mpr positive.ne')]
      exact isRounding_refl _
    · exact (Nat.div_le_self ..).trans
        (short.trans (Nat.pow_le_pow_right (by decide) (Nat.le_succ _)))
  · refine ⟨_, carried x.significand.natAbs y.significand.natAbs, if_neg even,
      isRounding_nearest positive (le_mul_pow_carried positive even), fun short => ?_⟩
    exact nearest_le positive (mul_pow_carried_le positive short)

/-- A quotient of decimals is rounded once. -/
theorem isRounding_div (divisor : y.significand ≠ 0) :
    IsRounding (x.toRat / y.toRat) (div x y).toRat := by
  obtain ⟨quotient, shift, quotient_eq, close, _⟩ := exists_div_eq (x := x) divisor
  have scaled := close.mul_left ((x.significand.sign * y.significand.sign : Int) *
    (10 : Rat) ^ (x.exponent - y.exponent - shift))
  have scale : (10 : Rat) ^ (x.exponent - y.exponent - shift) * 10 ^ shift * 10 ^ y.exponent =
      10 ^ x.exponent := by
    rw [← zpow_natCast, ← zpow_add₀ (by norm_num), ← zpow_add₀ (by norm_num)]
    congr 1
    omega
  rw [quotient_eq, toRat_normalized]
  convert scaled using 1
  · rw [toRat, toRat, ← scale, eq_sign_mul_natAbs x.significand, eq_sign_mul_natAbs y.significand,
      mul_div_mul_comm, mul_div_mul_comm, div_eq_mul_inv _ (y.significand.sign : Rat),
      inv_sign]
    push_cast
    field_simp
  · push_cast
    ring

end

/-! ## Rational numbers -/

/-- Roundings of a numerator, of its denominator and of their quotient leave the error small. -/
theorem abs_sub_div_le
    {numerator denominator dividend divisor quotient : Rat}
    (first : IsRounding numerator dividend)
    (second : IsRounding denominator divisor)
    (third : IsRounding (dividend / divisor) quotient) :
    |quotient - numerator / denominator| ≤ 4 * halfUnit * |numerator / denominator| := by
  obtain ⟨p, p_small, rfl⟩ := first.exists_factor
  obtain ⟨q, q_small, rfl⟩ := second.exists_factor
  obtain ⟨r, r_small, rfl⟩ := third.exists_factor
  have tiny : halfUnit ≤ 1 / 5 := by norm_num [halfUnit, workingDigits]
  have unit_pos := halfUnit_pos
  have product_small : |p * r| ≤ halfUnit * halfUnit := by
    rw [abs_mul]
    gcongr
  have square_le : halfUnit * halfUnit ≤ halfUnit * (1 / 5) := by gcongr
  have mixed_small : |halfUnit * q| ≤ halfUnit * halfUnit := by
    rw [abs_mul, abs_of_pos unit_pos]
    gcongr
  rw [abs_le] at p_small q_small r_small product_small mixed_small
  have divisor_pos : 0 < 1 + q := by linarith
  -- The three errors make one: that of a factor whose error is theirs, up to the products.
  have factor : numerator * (1 + p) / (denominator * (1 + q)) * (1 + r) - numerator / denominator =
      (p + r + p * r - q) / (1 + q) * (numerator / denominator) := by
    have nonzero := divisor_pos.ne'
    rw [mul_div_mul_comm]
    field_simp
    ring
  have factor_small : |(p + r + p * r - q) / (1 + q)| ≤ 4 * halfUnit := by
    rw [abs_div, abs_of_pos divisor_pos, div_le_iff₀ divisor_pos, abs_le]
    constructor <;> linarith
  rw [factor, abs_mul]
  gcongr

theorem significand_rounded_ne_zero
    {significand : Int}
    (nonzero : significand ≠ 0)
    (exponent : Int) :
    (rounded significand exponent).significand ≠ 0 := by
  obtain ⟨error, small, value⟩ := (isRounding_rounded significand exponent).exists_factor
  have tiny : halfUnit < 1 := by norm_num [halfUnit, workingDigits]
  have factor : 1 + error ≠ 0 := by
    rw [abs_le] at small
    linarith
  rw [Ne, ← toRat_eq_zero_iff, value]
  exact mul_ne_zero (mul_ne_zero (Int.cast_ne_zero.mpr nonzero) (zpow_ne_zero _ (by norm_num)))
    factor

/-- The decimal of a number is near it. -/
theorem abs_toRat_ofRat_sub_le (x : Rat) :
    |(ofRat x).toRat - x| ≤ 2 / 10 ^ (workingDigits - 1) * |x| := by
  have divisor := significand_rounded_ne_zero (Int.natCast_ne_zero.mpr x.den_ne_zero) 0
  have error := abs_sub_div_le (isRounding_rounded x.num 0) (isRounding_rounded x.den 0)
    (isRounding_div divisor)
  have unit : 4 * halfUnit = 2 / 10 ^ (workingDigits - 1) := by
    rw [halfUnit]
    ring
  rwa [zpow_zero, mul_one, mul_one, Int.cast_natCast, Rat.num_div_den, unit] at error

/-- The decimal of a number and the number are at most twice as large as each other. -/
theorem abs_toRat_ofRat_le (x : Rat) :
    |(ofRat x).toRat| ≤ 2 * |x| ∧ |x| ≤ 2 * |(ofRat x).toRat| := by
  have error := abs_toRat_ofRat_sub_le x
  have tiny : 2 / 10 ^ (workingDigits - 1) ≤ (1 / 2 : Rat) := by norm_num [workingDigits]
  have part : 2 / 10 ^ (workingDigits - 1) * |x| ≤ 1 / 2 * |x| := by gcongr
  have above := abs_sub_abs_le_abs_sub (ofRat x).toRat x
  have below := abs_sub_abs_le_abs_sub x (ofRat x).toRat
  rw [abs_sub_comm] at below
  constructor <;> linarith

theorem significand_ofRat_ne_zero {x : Rat} (nonzero : x ≠ 0) : (ofRat x).significand ≠ 0 := by
  have size := abs_pos.mpr nonzero
  have large := (abs_toRat_ofRat_le x).2
  refine mt toRat_eq_zero_iff.mpr (abs_pos.mp ?_)
  linarith

/-- A decimal of a number has one digit more than the working ones at most. -/
theorem natAbs_significand_ofRat_le (x : Rat) :
    (ofRat x).significand.natAbs ≤ 10 ^ (workingDigits + 1) := by
  have divisor := significand_rounded_ne_zero (Int.natCast_ne_zero.mpr x.den_ne_zero) 0
  obtain ⟨quotient, shift, value, _, short⟩ := exists_div_eq (x := rounded x.num 0) divisor
  have sign : ((rounded x.num 0).significand.sign *
      (rounded (x.den : Int) 0).significand.sign).natAbs ≤ 1 := by
    rw [Int.natAbs_mul]
    exact Nat.mul_le_mul (natAbs_sign_le _) (natAbs_sign_le _)
  rw [ofRat, value]
  exact (natAbs_significand_normalized_mul_le sign _ _).trans
    (short (natAbs_significand_rounded_le x.num 0))

/-- What is nearer to a number than zero is has the sign of the number. -/
theorem sign_eq_of_abs_sub_lt {x y : Rat} (near : |y - x| < |x|) :
    SignType.sign y = SignType.sign x := by
  rw [abs_lt] at near
  obtain negative | zero | positive := lt_trichotomy x 0
  · rw [abs_of_neg negative] at near
    rw [sign_neg negative, sign_neg (by linarith)]
  · rw [zero, abs_zero] at near
    linarith
  · rw [abs_of_pos positive] at near
    rw [sign_pos positive, sign_pos (by linarith)]

theorem sign_toRat_ofRat (x : Rat) : SignType.sign (ofRat x).toRat = SignType.sign x := by
  by_cases zero : x = 0
  · have same : (ofRat 0).toRat = 0 := toRat_eq_zero_iff.mpr (by decide)
    rw [zero, same]
  · have tiny : 2 / 10 ^ (workingDigits - 1) < (1 : Rat) := by norm_num [workingDigits]
    refine sign_eq_of_abs_sub_lt ((abs_toRat_ofRat_sub_le x).trans_lt ?_)
    exact mul_lt_of_lt_one_left (abs_pos.mpr zero) tiny

/--
The decimal of a number is zero just for zero, has the sign of the number, and differs from
it by two parts in `10 ^ 49` at most.  This holds whatever the lengths of the numerator and
the denominator are, and however far their division is carried.
-/
theorem ofRat_accurate (x : Rat) :
    ((ofRat x).toRat = 0 ↔ x = 0) ∧
      SignType.sign (ofRat x).toRat = SignType.sign x ∧
      |(ofRat x).toRat - x| ≤ 2 * (10 : Rat) ^ (-49 : Int) * |x| := by
  refine ⟨?_, sign_toRat_ofRat x, ?_⟩
  · rw [← sign_eq_zero_iff, sign_toRat_ofRat, sign_eq_zero_iff]
  · have error := abs_toRat_ofRat_sub_le x
    rwa [div_eq_mul_inv, ← zpow_natCast, ← zpow_neg] at error

end Decimal
end ExactFormula
