import ExactFormula.Number.Arithmetic
import Mathlib.Data.Rat.Lemmas
import Mathlib.Tactic.NormNum

/-!
# Powers

Integer powers are exact.  Which of them exist is decided by the base and by the size
of the exponent alone: zero has no negative power, and zero and one are the only bases
with an exponent of any size.  A power with a fractional exponent leaves the numbers
that are exact unless its base is zero or one.
-/

namespace ExactFormula
namespace Number

variable {x : Rat} {m n : Int}

/-- What an integer power is, and why there may be none. -/
theorem power_intCast (x : Rat) (n : Int) :
    power x n =
      if x = 0 ∧ n < 0 then .error .divisionByZero
      else if x ≠ 0 ∧ x ≠ 1 ∧ 100000 < |n| then .error .overflow
      else .ok (x ^ n) := by
  have size : (n : Rat).num.natAbs ≤ largestExponent ↔ ¬100000 < |n| := by
    rw [Rat.num_intCast, Int.abs_eq_natAbs, largestExponent]
    omega
  unfold power
  by_cases zeroExponent : n = 0
  · rw [if_pos (.inl (Int.cast_eq_zero.mpr zeroExponent)), zeroExponent]
    simp
  by_cases one : x = 1
  · rw [if_pos (.inr one), one]
    simp
  rw [if_neg (not_or.mpr ⟨Int.cast_ne_zero.mpr zeroExponent, one⟩)]
  by_cases zero : x = 0
  · simp [zero, zero_zpow n zeroExponent]
  have defined : ¬(x = 0 ∧ n < 0) := fun undefined => zero undefined.1
  rw [if_neg zero, if_pos (Rat.den_intCast n), if_neg defined]
  by_cases large : 100000 < |n|
  · rw [if_neg (mt size.mp (not_not.mpr large)), if_pos ⟨zero, one, large⟩]
  · rw [if_pos (size.mpr large), if_neg fun tooLarge => large tooLarge.2.2, Rat.num_intCast]

theorem power_intCast_eq_divisionByZero_iff :
    power x n = .error .divisionByZero ↔ x = 0 ∧ n < 0 := by
  rw [power_intCast]
  split
  · rename_i undefined
    exact iff_of_true rfl undefined
  · rename_i defined
    split <;> simp [defined]

theorem power_intCast_eq_overflow_iff :
    power x n = .error .overflow ↔ x ≠ 0 ∧ x ≠ 1 ∧ 100000 < |n| := by
  rw [power_intCast]
  split
  · rename_i undefined
    simp [undefined.1]
  · split
    · rename_i tooLarge
      exact iff_of_true rfl tooLarge
    · rename_i small
      exact iff_of_false (by simp) small

theorem power_intCast_eq_ok_iff :
    power x n = .ok (x ^ n) ↔
      ¬(x = 0 ∧ n < 0) ∧ ¬(x ≠ 0 ∧ x ≠ 1 ∧ 100000 < |n|) := by
  rw [← power_intCast_eq_divisionByZero_iff, ← power_intCast_eq_overflow_iff, power_intCast]
  split
  · simp
  · split <;> simp

/-- A power that exists is exact. -/
theorem eq_zpow_of_power_eq_ok {z : Rat} (computed : power x n = .ok z) : z = x ^ n := by
  rw [power_intCast] at computed
  split at computed
  · cases computed
  · split at computed
    · cases computed
    · exact (Except.ok.inj computed).symm

/--
The numerator and the denominator are raised to the power apart, and change places
when the exponent is negative.
-/
theorem parts_of_power_eq_ok {z : Rat} (computed : power x n = .ok z) :
    (0 ≤ n → z.num = x.num ^ n.natAbs ∧ z.den = x.den ^ n.natAbs) ∧
      (n < 0 → z⁻¹.num = x.num ^ n.natAbs ∧ z⁻¹.den = x.den ^ n.natAbs) := by
  obtain rfl := eq_zpow_of_power_eq_ok computed
  constructor
  · intro nonnegative
    rw [← Int.natAbs_of_nonneg nonnegative, zpow_natCast, Int.natAbs_natCast]
    exact ⟨Rat.num_pow .., Rat.den_pow ..⟩
  · intro negative
    rw [← zpow_neg, ← Int.ofNat_natAbs_of_nonpos negative.le, zpow_natCast]
    exact ⟨Rat.num_pow .., Rat.den_pow ..⟩

/-- The product of two powers of a base is its power for the sum of the exponents. -/
theorem power_add
    (nonzero : x ≠ 0)
    (within : x = 1 ∨ |m| ≤ 100000 ∧ |n| ≤ 100000 ∧ |m + n| ≤ 100000) :
    ∃ p q, power x m = .ok p ∧ power x n = .ok q ∧ power x (m + n : Int) = .ok (p * q) := by
  have defined : ∀ k : Int, x = 1 ∨ |k| ≤ 100000 → power x k = .ok (x ^ k) := by
    intro k small
    refine power_intCast_eq_ok_iff.mpr ⟨fun undefined => nonzero undefined.1, ?_⟩
    rintro ⟨_, notOne, large⟩
    exact (small.resolve_left notOne).not_gt large
  refine ⟨x ^ m, x ^ n, ?_, ?_, ?_⟩
  · exact defined m (within.imp_right And.left)
  · exact defined n (within.imp_right fun sizes => sizes.2.1)
  · rw [← zpow_add₀ nonzero]
    exact defined (m + n) (within.imp_right fun sizes => sizes.2.2)

/-! ## Fractional exponents -/

section

variable {y : Rat}

theorem den_ne_one_iff : y.den ≠ 1 ↔ ∀ n : Int, y ≠ n := by
  constructor
  · rintro fractional n rfl
    exact fractional (Rat.den_intCast n)
  · intro noInteger whole
    exact noInteger y.num (Rat.den_eq_one_iff y |>.mp whole).symm

/-- With a fractional exponent the base decides, and its sign decides whether there is a power. -/
theorem power_fractional (fractional : ∀ n : Int, y ≠ n) :
    power x y =
      if x = 1 then .ok 1
      else if x = 0 then if y < 0 then .error .divisionByZero else .ok 0
      else if x < 0 then .error (.outsideDomain .fractionalPowerOfNegative)
      else .ok (Decimal.power (Decimal.ofRat x) (Decimal.ofRat y)).toRat := by
  have nonzero : y ≠ 0 := by exact_mod_cast fractional 0
  simp only [power, nonzero, false_or, den_ne_one_iff.mpr fractional, if_false]

theorem power_fractional_outsideDomain_iff (fractional : ∀ n : Int, y ≠ n) :
    (∃ cause, power x y = .error (.outsideDomain cause)) ↔ x < 0 := by
  rw [power_fractional fractional]
  by_cases one : x = 1
  · rw [if_pos one, one]
    simp
  by_cases zero : x = 0
  · rw [if_neg one, if_pos zero, zero]
    split <;> simp
  · rw [if_neg one, if_neg zero]
    by_cases negative : x < 0
    · simp [negative]
    · simp [negative]

end

/--
Integer powers are exact, `0 ^ 0` included, except that zero has no negative power and
that an exponent beyond the limit is too large for every base but zero and one.  Within
the limit powers multiply by adding the exponents.  With a fractional exponent one and
zero are treated alike, and every negative base is outside the domain.
-/
theorem power_exact (x : Rat) :
    (∀ n : Int,
      (power x n = .error .divisionByZero ↔ x = 0 ∧ n < 0) ∧
      (power x n = .error .overflow ↔ x ≠ 0 ∧ x ≠ 1 ∧ 100000 < |n|) ∧
      (power x n = .ok (x ^ n) ↔
        ¬(x = 0 ∧ n < 0) ∧ ¬(x ≠ 0 ∧ x ≠ 1 ∧ 100000 < |n|)) ∧
      ∀ z, power x n = .ok z →
        (0 ≤ n → z.num = x.num ^ n.natAbs ∧ z.den = x.den ^ n.natAbs) ∧
        (n < 0 → z⁻¹.num = x.num ^ n.natAbs ∧ z⁻¹.den = x.den ^ n.natAbs)) ∧
    power x 0 = .ok 1 ∧
    (x ≠ 0 → ∀ m n : Int,
      (x = 1 ∨ |m| ≤ 100000 ∧ |n| ≤ 100000 ∧ |m + n| ≤ 100000) →
      ∃ p q, power x m = .ok p ∧ power x n = .ok q ∧ power x (m + n : Int) = .ok (p * q)) ∧
    ∀ y : Rat, (∀ n : Int, y ≠ n) →
      (x = 1 → power x y = .ok 1) ∧
      (x = 0 → 0 < y → power x y = .ok 0) ∧
      (x = 0 → y < 0 → power x y = .error .divisionByZero) ∧
      ((∃ cause, power x y = .error (.outsideDomain cause)) ↔ x < 0) := by
  refine ⟨fun n => ?_, by simp [power], fun nonzero m n => power_add nonzero, ?_⟩
  · exact ⟨power_intCast_eq_divisionByZero_iff, power_intCast_eq_overflow_iff,
      power_intCast_eq_ok_iff, fun z => parts_of_power_eq_ok⟩
  · intro y fractional
    have cases := power_fractional (x := x) fractional
    refine ⟨?_, ?_, ?_, power_fractional_outsideDomain_iff fractional⟩
    · rintro rfl
      rw [cases, if_pos rfl]
    · rintro rfl positive
      rw [cases, if_neg (by norm_num), if_pos rfl, if_neg positive.not_gt]
    · rintro rfl negative
      rw [cases, if_neg (by norm_num), if_pos rfl, if_pos negative]

/-- A negative fraction with a negative, a large and a fractional exponent. -/
theorem power_exact_negative_fraction :
    power (-2 / 3) (-3 : Int) = .ok (-27 / 8) ∧
      power (-2 / 3) (-100001 : Int) = .error .overflow ∧
      (∃ p q, power (-2 / 3) (-3 : Int) = .ok p ∧ power (-2 / 3) (5 : Int) = .ok q ∧
        power (-2 / 3) ((-3) + 5 : Int) = .ok (p * q)) ∧
      ∃ cause, power (-2 / 3) (1 / 2) = .error (.outsideDomain cause) := by
  obtain ⟨integer, _, product, fractional⟩ := power_exact (-2 / 3)
  have exact := (integer (-3)).2.2.1.mpr (by norm_num)
  have value : (-2 / 3 : Rat) ^ (-3 : Int) = -27 / 8 := by norm_num
  rw [value] at exact
  refine ⟨exact, (integer (-100001)).2.1.mpr (by norm_num), ?_, ?_⟩
  · exact product (by norm_num) (-3) 5 (.inr (by norm_num))
  · have half : ∀ n : Int, (1 / 2 : Rat) ≠ n := den_ne_one_iff.mp (by decide +kernel)
    exact (fractional (1 / 2) half).2.2.2.mpr (by norm_num)

end Number
end ExactFormula
