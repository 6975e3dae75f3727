import ExactFormula.Binary64.Basic
import ExactFormula.Proofs.Number.Places
import Mathlib.Algebra.Order.Field.Basic
import Mathlib.Algebra.Order.Field.Power
import Mathlib.Data.Rat.Cast.Order
import Mathlib.Tactic.FieldSimp
import Mathlib.Tactic.GCongr
import Mathlib.Tactic.Linarith
import Mathlib.Tactic.NormNum
import Mathlib.Tactic.Positivity
import Mathlib.Tactic.Ring

/-!
# Rounding to binary values

A fraction that is not larger than the largest finite value is rounded to a finite
value, at most half a unit of its last binary place away.  Unless it is very small, that
is at most a part in `2 ^ 53` of it.
-/

namespace ExactFormula
namespace Binary64

variable {numerator denominator bound : Nat} {exponent : Int}

/-! ## Quotients -/

section

variable (positive : 0 < denominator)

include positive

/-- Rounding a quotient does not pass a whole number that bounds it. -/
theorem roundQuotient_le (small : (numerator : Rat) / denominator ≤ bound) :
    roundQuotient numerator denominator ≤ bound := by
  rw [div_le_iff₀ (Nat.cast_pos.mpr positive)] at small
  have product : numerator ≤ bound * denominator := by exact_mod_cast small
  have division := Nat.div_add_mod numerator denominator
  have whole : numerator / denominator ≤ bound := Nat.div_le_of_le_mul (by linarith)
  unfold roundQuotient
  dsimp only
  split
  · rename_i up
    refine Nat.lt_of_le_of_ne whole fun reached => ?_
    rw [reached, Nat.mul_comm] at division
    have even : numerator % denominator = 0 := by omega
    omega
  · exact whole

/-- A rounded quotient is half a unit away at most. -/
theorem abs_roundQuotient_sub_le :
    |(roundQuotient numerator denominator : Rat) - numerator / denominator| ≤ 1 / 2 := by
  have division : (denominator : Rat) * (numerator / denominator : Nat) +
      (numerator % denominator : Nat) = numerator := by
    exact_mod_cast Nat.div_add_mod numerator denominator
  have below := Nat.mod_lt numerator positive
  have divisor : (0 : Rat) < denominator := Nat.cast_pos.mpr positive
  have quotient : (numerator : Rat) / denominator =
      (numerator / denominator : Nat) + (numerator % denominator : Nat) / denominator := by
    rw [eq_comm, ← division]
    field_simp
  rw [quotient, abs_le]
  unfold roundQuotient
  dsimp only
  generalize numerator / denominator = whole
  generalize numerator % denominator = left at below
  have nonnegative : (0 : Rat) ≤ left / denominator := by positivity
  split
  · rename_i up
    have half : (denominator : Rat) ≤ 2 * left := by
      have enough : denominator ≤ 2 * left := by omega
      exact_mod_cast enough
    have above : 1 / 2 ≤ (left : Rat) / denominator := by
      rw [le_div_iff₀ divisor]
      linarith
    have one : (left : Rat) / denominator ≤ 1 := by
      rw [div_le_one divisor]
      exact_mod_cast below.le
    push_cast
    constructor <;> linarith
  · rename_i down
    have half : 2 * (left : Rat) ≤ denominator := by
      have enough : 2 * left ≤ denominator := by omega
      exact_mod_cast enough
    have under : (left : Rat) / denominator ≤ 1 / 2 := by
      rw [div_le_iff₀ divisor]
      linarith
    constructor <;> linarith

end

/-! ## Quotients in units of a power of two -/

theorem two_zpow_eq_div (exponent : Int) :
    (2 : Rat) ^ exponent = 2 ^ exponent.toNat / 2 ^ (-exponent).toNat := by
  rw [← zpow_natCast, ← zpow_natCast, ← zpow_sub₀ (by norm_num)]
  congr 1
  omega

theorem roundScaled_eq (numerator denominator : Nat) (exponent : Int) :
    roundScaled numerator denominator exponent =
      roundQuotient (numerator * 2 ^ (-exponent).toNat) (denominator * 2 ^ exponent.toNat) := by
  unfold roundScaled
  split
  · rw [show (-exponent).toNat = 0 by omega, pow_zero, Nat.mul_one, Nat.pow_eq]
  · rw [show exponent.toNat = 0 by omega, pow_zero, Nat.mul_one, Nat.pow_eq]

theorem scaled_quotient (numerator denominator : Nat) (exponent : Int) :
    ((numerator * 2 ^ (-exponent).toNat : Nat) : Rat) /
        ((denominator * 2 ^ exponent.toNat : Nat) : Rat) =
      numerator / denominator / 2 ^ exponent := by
  rw [two_zpow_eq_div]
  push_cast
  field_simp

section

variable (positive : 0 < denominator)

include positive

theorem scaled_pos (exponent : Int) : 0 < denominator * 2 ^ exponent.toNat :=
  Nat.mul_pos positive (Nat.two_pow_pos _)

/-- Rounding to a unit does not pass a multiple of the unit that bounds the number. -/
theorem roundScaled_le (small : (numerator : Rat) / denominator ≤ bound * 2 ^ exponent) :
    roundScaled numerator denominator exponent ≤ bound := by
  rw [roundScaled_eq]
  refine roundQuotient_le (scaled_pos positive exponent) ?_
  rw [scaled_quotient]
  exact (div_le_iff₀ (by positivity)).mpr small

/-- A number is rounded by half a unit at most. -/
theorem abs_roundScaled_mul_sub_le (numerator : Nat) (exponent : Int) :
    |roundScaled numerator denominator exponent * (2 : Rat) ^ exponent -
        numerator / denominator| ≤ 2 ^ exponent / 2 := by
  have unit : (0 : Rat) < 2 ^ exponent := by positivity
  have error := @abs_roundQuotient_sub_le (numerator * 2 ^ (-exponent).toNat) _
    (scaled_pos positive exponent)
  rw [← roundScaled_eq, scaled_quotient] at error
  generalize (roundScaled numerator denominator exponent : Rat) = rounded at error ⊢
  calc |rounded * 2 ^ exponent - numerator / denominator|
      = |(rounded - numerator / denominator / 2 ^ exponent) * 2 ^ exponent| := by
        rw [sub_mul, div_mul_cancel₀ _ unit.ne']
    _ = |rounded - numerator / denominator / 2 ^ exponent| * 2 ^ exponent := by
        rw [abs_mul, abs_of_pos unit]
    _ ≤ 1 / 2 * 2 ^ exponent := by gcongr
    _ = 2 ^ exponent / 2 := by ring

end

/-! ## The order of a fraction -/

theorem two_zpow_sub_natCast (first second : Nat) :
    (2 : Rat) ^ ((first : Int) - second) = 2 ^ first / 2 ^ second := by
  rw [zpow_sub₀ (by norm_num), zpow_natCast, zpow_natCast]

/-- The test of the estimate compares the fraction with a power of two. -/
theorem reached_iff (positive : 0 < denominator) :
    (if 0 ≤ exponent then denominator * Nat.pow 2 exponent.toNat ≤ numerator
      else denominator ≤ numerator * Nat.pow 2 (-exponent).toNat) ↔
      (2 : Rat) ^ exponent ≤ numerator / denominator := by
  have product : (if 0 ≤ exponent then denominator * Nat.pow 2 exponent.toNat ≤ numerator
      else denominator ≤ numerator * Nat.pow 2 (-exponent).toNat) ↔
      denominator * 2 ^ exponent.toNat ≤ numerator * 2 ^ (-exponent).toNat := by
    split
    · rw [show (-exponent).toNat = 0 by omega, pow_zero, Nat.mul_one, Nat.pow_eq]
    · rw [show exponent.toNat = 0 by omega, pow_zero, Nat.mul_one, Nat.pow_eq]
  rw [product, two_zpow_eq_div, div_le_div_iff₀ (by positivity) (Nat.cast_pos.mpr positive),
    mul_comm (2 ^ exponent.toNat : Rat)]
  exact_mod_cast Iff.rfl

/-- The order of a fraction is the exponent of the greatest power of two that it reaches. -/
theorem binaryOrder_bounds (present : 0 < numerator) (positive : 0 < denominator) :
    (2 : Rat) ^ binaryOrder numerator denominator ≤ numerator / denominator ∧
      (numerator : Rat) / denominator < 2 ^ (binaryOrder numerator denominator + 1) := by
  have divisor : (0 : Rat) < denominator := Nat.cast_pos.mpr positive
  have numeratorLow : (2 : Rat) ^ numerator.log2 ≤ numerator := by
    exact_mod_cast Nat.log2_self_le present.ne'
  have numeratorHigh : (numerator : Rat) < 2 ^ (numerator.log2 + 1) := by
    exact_mod_cast Nat.lt_log2_self
  have denominatorLow : (2 : Rat) ^ denominator.log2 ≤ denominator := by
    exact_mod_cast Nat.log2_self_le positive.ne'
  have denominatorHigh : (denominator : Rat) < 2 ^ (denominator.log2 + 1) := by
    exact_mod_cast Nat.lt_log2_self
  -- The estimate may be one too large, since both logarithms are rounded down.
  have above : (numerator : Rat) / denominator <
      2 ^ ((numerator.log2 : Int) - denominator.log2 + 1) := by
    rw [sub_add_eq_add_sub, ← Nat.cast_succ, two_zpow_sub_natCast]
    exact div_lt_div₀ numeratorHigh denominatorLow (by positivity) (by positivity)
  have below : (2 : Rat) ^ ((numerator.log2 : Int) - denominator.log2 - 1) ≤
      numerator / denominator := by
    rw [sub_sub, ← Nat.cast_succ, two_zpow_sub_natCast]
    exact div_le_div₀ (by positivity) numeratorLow divisor denominatorHigh.le
  have reached := @reached_iff numerator _ ((numerator.log2 : Int) - denominator.log2) positive
  unfold binaryOrder
  dsimp only
  by_cases yes : (2 : Rat) ^ ((numerator.log2 : Int) - denominator.log2) ≤ numerator / denominator
  · rw [if_pos (reached.mpr yes)]
    exact ⟨yes, above⟩
  · rw [if_neg (mt reached.mp yes), sub_add_cancel]
    exact ⟨below, lt_of_not_ge yes⟩

/-! ## Rounding -/

/-- The largest finite value. -/
def largest : Rat := (2 ^ 53 - 1) * 2 ^ 971

/-- The largest finite value lies below the first power of two that is too large. -/
theorem largest_lt : largest < 2 ^ (1024 : Int) :=
  calc
    largest < 2 ^ 53 * 2 ^ 971 := by
      unfold largest
      gcongr
      norm_num
    _ = 2 ^ (1024 : Int) := by rw [← pow_add, ← zpow_natCast]; rfl

/-- Powers of ten lie below the largest value with a margin. -/
theorem ten_pow_le_largest {exponent : Nat} (small : exponent ≤ 308) :
    4 / 3 * (10 : Rat) ^ exponent ≤ largest := by
  have block : (10 : Rat) ^ 77 ≤ 7 / 8 * 2 ^ 256 := by norm_num
  calc 4 / 3 * (10 : Rat) ^ exponent
      ≤ 4 / 3 * 10 ^ 308 := by
        gcongr
        norm_num
    _ = 4 / 3 * (10 ^ 77) ^ 4 := by rw [← pow_mul]
    _ ≤ 4 / 3 * (7 / 8 * 2 ^ 256) ^ 4 := by gcongr
    _ = 4 / 3 * (7 / 8) ^ 4 * 2 ^ 53 * 2 ^ 971 := by
      rw [mul_pow, ← pow_mul, mul_assoc _ (2 ^ 53 : Rat), ← pow_add, ← mul_assoc]
    _ ≤ largest := by
      unfold largest
      gcongr
      norm_num

/-- The size of a finite value, without its sign. -/
def size? : Binary64 → Option Rat
  | finite _ significand exponent => some (magnitude significand exponent)
  | _ => none

theorem isFinite_iff_size? {x : Binary64} : x.isFinite = true ↔ ∃ size, x.size? = some size := by
  cases x <;> simp [isFinite, size?]

/-- The exponent with which a fraction is rounded at first. -/
def roundingExponent (numerator denominator : Nat) : Int :=
  max leastExponent (binaryOrder numerator denominator - 52)

section

variable (positive : 0 < denominator)

include positive

section

variable (present : 0 < numerator) (small : (numerator : Rat) / denominator ≤ largest)

include present small

/-- What is not larger than the largest value is rounded with an exponent of the format. -/
theorem roundingExponent_le : roundingExponent numerator denominator ≤ largestExponent := by
  have below : (2 : Rat) ^ binaryOrder numerator denominator < 2 ^ (1024 : Int) :=
    ((binaryOrder_bounds present positive).1.trans small).trans_lt largest_lt
  have order := (zpow_lt_zpow_iff_right₀ (by norm_num : (1 : Rat) < 2)).mp below
  rw [roundingExponent, leastExponent, largestExponent]
  omega

/-- At the largest exponent nothing is carried. -/
theorem roundingExponent_lt
    (carried : roundScaled numerator denominator (roundingExponent numerator denominator) =
      2 * leastFull) :
    roundingExponent numerator denominator < largestExponent := by
  refine lt_of_le_of_ne (roundingExponent_le positive present small) fun top => ?_
  have bounded : roundScaled numerator denominator largestExponent ≤ 2 ^ 53 - 1 := by
    refine roundScaled_le positive (small.trans (le_of_eq ?_))
    rw [largest, largestExponent, ← zpow_natCast 2 971]
    norm_num
  rw [top] at carried
  rw [carried, leastFull] at bounded
  omega

/-- A fraction that is not too large is rounded to a finite value, in units of its exponent. -/
theorem size?_round (negative : Bool) :
    (round negative numerator denominator).size? =
      some (roundScaled numerator denominator (roundingExponent numerator denominator) *
        (2 : Rat) ^ roundingExponent numerator denominator) := by
  unfold round
  rw [if_neg present.ne']
  change size? (
    let significand := roundScaled numerator denominator (roundingExponent numerator denominator)
    let carried := significand = 2 * leastFull
    let exponent := if carried then roundingExponent numerator denominator + 1
      else roundingExponent numerator denominator
    let significand := if carried then leastFull else significand
    if largestExponent < exponent then .infinite negative
    else .finite negative significand exponent) = _
  dsimp only
  by_cases carried : roundScaled numerator denominator (roundingExponent numerator denominator) =
      2 * leastFull
  · have below := roundingExponent_lt positive present small carried
    rw [if_pos carried, if_pos carried, if_neg (by omega), carried, size?, magnitude,
      zpow_add_one₀ (by norm_num)]
    congr 1
    push_cast
    ring
  · have limit := roundingExponent_le positive present small
    rw [if_neg carried, if_neg carried, if_neg (by omega), size?, magnitude]

end

/-- The unit of a fraction that is not very small is a small part of it. -/
theorem two_zpow_roundingExponent_le
    (present : 0 < numerator)
    (normal : (2 : Rat) ^ (-1022 : Int) ≤ numerator / denominator) :
    (2 : Rat) ^ roundingExponent numerator denominator ≤
      2 ^ (-52 : Int) * (numerator / denominator) := by
  obtain ⟨low, high⟩ := binaryOrder_bounds present positive
  have order : -1022 ≤ binaryOrder numerator denominator := by
    have below : (2 : Rat) ^ (-1022 : Int) < 2 ^ (binaryOrder numerator denominator + 1) :=
      normal.trans_lt high
    have := (zpow_lt_zpow_iff_right₀ (by norm_num : (1 : Rat) < 2)).mp below
    omega
  have exponent : roundingExponent numerator denominator =
      -52 + binaryOrder numerator denominator := by
    rw [roundingExponent, leastExponent]
    omega
  rw [exponent, zpow_add₀ (by norm_num)]
  gcongr

end

/-! ## Numbers -/

section

variable {x : Rat}

/-- A number that is not too large is rounded to a finite value. -/
theorem exists_size?_round
    (negative : Bool)
    (small : |x| ≤ largest) :
    ∃ size, (round negative x.num.natAbs x.den).size? = some size ∧
      |size - (|x|)| ≤ 2 ^ roundingExponent x.num.natAbs x.den / 2 := by
  rw [Number.abs_eq_natAbs_div] at small ⊢
  obtain zero | present := Nat.eq_zero_or_pos x.num.natAbs
  · refine ⟨0, ?_, ?_⟩
    · rw [zero, round, if_pos rfl, size?, magnitude, Nat.cast_zero, zero_mul]
    · rw [zero, Nat.cast_zero, zero_div, sub_zero, abs_zero]
      positivity
  · exact ⟨_, size?_round x.den_pos present small negative,
      abs_roundScaled_mul_sub_le x.den_pos ..⟩

theorem isFinite_round (negative : Bool) (small : |x| ≤ largest) :
    (round negative x.num.natAbs x.den).isFinite = true := by
  obtain ⟨size, finite, _⟩ := exists_size?_round negative small
  exact isFinite_iff_size?.mpr ⟨size, finite⟩

/-- A number that is not very small is changed by a small part of it. -/
theorem exists_size?_round_of_normal
    (negative : Bool)
    (normal : 2 ^ (-1022 : Int) ≤ |x|)
    (small : |x| ≤ largest) :
    ∃ size, (round negative x.num.natAbs x.den).size? = some size ∧
      |size - (|x|)| ≤ 2 ^ (-53 : Int) * |x| := by
  obtain ⟨size, finite, error⟩ := exists_size?_round negative small
  refine ⟨size, finite, error.trans ?_⟩
  rw [Number.abs_eq_natAbs_div] at normal ⊢
  have present : 0 < x.num.natAbs := by
    refine Nat.pos_of_ne_zero fun zero => ?_
    rw [zero, Nat.cast_zero, zero_div] at normal
    exact absurd normal (not_le.mpr (by positivity))
  calc (2 : Rat) ^ roundingExponent x.num.natAbs x.den / 2
      ≤ 2 ^ (-52 : Int) * (x.num.natAbs / x.den) / 2 := by
        gcongr
        exact two_zpow_roundingExponent_le x.den_pos present normal
    _ = 2 ^ (-53 : Int) * (x.num.natAbs / x.den) := by
        rw [show (-52 : Int) = -53 + 1 by norm_num, zpow_add_one₀ (by norm_num)]
        ring

end

end Binary64
end ExactFormula
