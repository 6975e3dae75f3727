import ExactFormula.Number.Places
import ExactFormula.Proofs.Number.Multiplicity
import Mathlib.Data.Nat.Prime.Basic
import Mathlib.Data.Rat.Lemmas
import Mathlib.Order.Bounds.Basic
import Mathlib.Tactic.Positivity
import Mathlib.Tactic.Ring

/-!
# How many decimal places a number needs

A number is a whole number of units of its last decimal place, and of no place
before that one.  It has no last place when its denominator has a prime factor
besides two and five.
-/

namespace ExactFormula
namespace Number

variable {x : Rat} {places : Nat}

theorem two_pow_mul_five_pow_dvd_iff {twos fives places : Nat} :
    2 ^ twos * 5 ^ fives ∣ 10 ^ places ↔ max twos fives ≤ places := by
  have ten : (10 : Nat) ^ places = 2 ^ places * 5 ^ places := (Nat.mul_pow 2 5 places).symm ▸ rfl
  rw [ten, Nat.max_le]
  constructor
  · intro divides
    have byTwo : 2 ^ twos ∣ 2 ^ places := by
      refine Nat.Coprime.dvd_of_dvd_mul_right ?_ ((Nat.dvd_mul_right _ _).trans divides)
      exact Nat.Coprime.pow _ _ (by decide)
    have byFive : 5 ^ fives ∣ 5 ^ places := by
      refine Nat.Coprime.dvd_of_dvd_mul_left ?_ ((Nat.dvd_mul_left _ _).trans divides)
      exact Nat.Coprime.pow _ _ (by decide)
    exact ⟨(Nat.pow_dvd_pow_iff_le_right (by decide)).mp byTwo,
      (Nat.pow_dvd_pow_iff_le_right (by decide)).mp byFive⟩
  · rintro ⟨enoughTwos, enoughFives⟩
    exact Nat.mul_dvd_mul (Nat.pow_dvd_pow 2 enoughTwos) (Nat.pow_dvd_pow 5 enoughFives)

/--
Either there are places, and the denominator divides the powers of ten from that
number on, or the denominator has another prime factor than two and five.
-/
theorem decimalPlaces?_cases (x : Rat) :
    (∃ places, decimalPlaces? x = some places ∧ ∀ others, x.den ∣ 10 ^ others ↔ places ≤ others) ∨
      decimalPlaces? x = none ∧ ∃ p, p.Prime ∧ p ∣ x.den ∧ p ≠ 2 ∧ p ≠ 5 := by
  have twos := Multiplicity.pow_count_mul_rest 2 x.den
  have noTwo := Multiplicity.not_dvd_rest (Nat.le_refl 2) x.den_pos
  have positive := Multiplicity.rest_pos 2 x.den_pos
  have fives := Multiplicity.pow_count_mul_rest 5 (Multiplicity.of 2 x.den).rest
  have noFive := Multiplicity.not_dvd_rest (by decide : 2 ≤ 5) positive
  unfold decimalPlaces?
  dsimp only
  generalize Multiplicity.of 2 x.den = two at *
  generalize Multiplicity.of 5 two.rest = five at *
  by_cases one : five.rest = 1
  · rw [if_pos one]
    refine .inl ⟨_, rfl, fun others => ?_⟩
    rw [← twos, ← fives, one, mul_one]
    exact two_pow_mul_five_pow_dvd_iff
  · rw [if_neg one]
    have factor : five.rest.minFac ∣ five.rest := Nat.minFac_dvd _
    have inside : five.rest ∣ two.rest := Dvd.intro_left _ fives
    refine .inr ⟨rfl, five.rest.minFac, Nat.minFac_prime one, ?_, ?_, ?_⟩
    · exact (factor.trans inside).trans (Dvd.intro_left _ twos)
    · intro isTwo
      exact noTwo ((isTwo ▸ factor).trans inside)
    · intro isFive
      exact noFive (isFive ▸ factor)

/-- A power of ten clears the denominator exactly from the number of decimal places on. -/
theorem den_dvd_pow_iff
    (found : decimalPlaces? x = some places)
    {others : Nat} :
    x.den ∣ 10 ^ others ↔ places ≤ others := by
  obtain ⟨least, same, divides⟩ | ⟨none, _⟩ := decimalPlaces?_cases x
  · rw [found, Option.some.injEq] at same
    exact same ▸ divides others
  · simp [found] at none

/-- Without a finite decimal, another prime than two and five divides the denominator. -/
theorem exists_prime_of_decimalPlaces?_eq_none (none : decimalPlaces? x = none) :
    ∃ p, p.Prime ∧ p ∣ x.den ∧ p ≠ 2 ∧ p ≠ 5 := by
  obtain ⟨least, same, _⟩ | ⟨_, factor⟩ := decimalPlaces?_cases x
  · simp [none] at same
  · exact factor

/-! ## Units of the last place -/

theorem abs_eq_natAbs_div (x : Rat) : |x| = x.num.natAbs / x.den := by
  rw [Rat.abs_def, Rat.divInt_eq_div, Int.cast_natCast, Int.cast_natCast]

/-- Nothing is rounded off where there are enough places. -/
theorem unitsOf_mul_den (enough : x.den ∣ 10 ^ places) :
    unitsOf x places * x.den = x.num.natAbs * 10 ^ places := by
  obtain ⟨multiple, exact⟩ := Dvd.dvd.mul_left enough x.num.natAbs
  have units : unitsOf x places = multiple := by
    rw [unitsOf, Nat.pow_eq, exact, ← Nat.mul_assoc, Nat.add_comm]
    rw [Nat.add_mul_div_left _ _ (by have := x.den_pos; omega)]
    rw [Nat.div_eq_of_lt (by have := x.den_pos; omega), Nat.zero_add]
  rw [units, exact, Nat.mul_comm]

theorem unitsOf_eq_zero_iff (enough : x.den ∣ 10 ^ places) : unitsOf x places = 0 ↔ x = 0 := by
  have product := unitsOf_mul_den enough
  have power : 0 < 10 ^ places := Nat.pow_pos (by decide)
  have den := x.den_ne_zero
  rw [← Rat.num_eq_zero, ← Int.natAbs_eq_zero]
  constructor
  · intro zero
    rw [zero, Nat.zero_mul] at product
    exact (Nat.mul_eq_zero.mp product.symm).resolve_right power.ne'
  · intro zero
    rw [zero, Nat.zero_mul] at product
    exact (Nat.mul_eq_zero.mp product).resolve_right den

/-- The last of the places that are needed has a digit other than zero. -/
theorem not_ten_dvd_unitsOf
    (found : decimalPlaces? x = some places)
    (positive : 0 < places) :
    ¬10 ∣ unitsOf x places := by
  rintro ⟨tenth, units⟩
  have product := unitsOf_mul_den ((den_dvd_pow_iff found).mpr (Nat.le_refl places))
  obtain ⟨fewer, rfl⟩ := Nat.exists_eq_succ_of_ne_zero positive.ne'
  have divides : x.den ∣ 10 ^ fewer := by
    refine Nat.Coprime.dvd_of_dvd_mul_left x.reduced.symm (Dvd.intro_left tenth ?_)
    rw [units, pow_succ] at product
    refine Nat.eq_of_mul_eq_mul_left (by decide : 0 < 10) ?_
    rw [← Nat.mul_assoc, product]
    ring
  exact Nat.not_succ_le_self fewer ((den_dvd_pow_iff found).mp divides)

/-- A number is its units, with its sign, in the last place. -/
theorem signed_unitsOf_mul_zpow (enough : x.den ∣ 10 ^ places) :
    ((if x < 0 then -(unitsOf x places : Int) else unitsOf x places : Int) : Rat) *
      (10 : Rat) ^ (-(places : Int)) = x := by
  have product : (if x < 0 then -(unitsOf x places : Int) else unitsOf x places) * (x.den : Int) =
      x.num * 10 ^ places := by
    have units : (unitsOf x places : Int) * x.den = x.num.natAbs * 10 ^ places := by
      exact_mod_cast unitsOf_mul_den enough
    by_cases negative : x < 0
    · have size : (x.num.natAbs : Int) = -x.num :=
        Int.ofNat_natAbs_of_nonpos (Rat.num_neg.mpr negative).le
      rw [if_pos negative, neg_mul, units, size, neg_mul, neg_neg]
    · have size : (x.num.natAbs : Int) = x.num :=
        Int.natAbs_of_nonneg (Rat.num_nonneg.mpr (not_lt.mp negative))
      rw [if_neg negative, units, size]
  have den : (x.den : Rat) ≠ 0 := Nat.cast_ne_zero.mpr x.den_ne_zero
  rw [zpow_neg, zpow_natCast, ← div_eq_mul_inv, div_eq_iff (by positivity)]
  refine mul_right_cancel₀ den ?_
  rw [mul_right_comm, Rat.mul_den_eq_num]
  exact_mod_cast product

/-! ## The least precision -/

/-- A number is a whole number of units of a place if its denominator divides that power of ten. -/
theorem exists_units_iff : (∃ units : Int, 10 ^ places * x = units) ↔ x.den ∣ 10 ^ places := by
  have den : (x.den : Rat) ≠ 0 := Nat.cast_ne_zero.mpr x.den_ne_zero
  constructor
  · rintro ⟨units, whole⟩
    have product : (10 ^ places * x.num : Int) = units * x.den := by
      have scaled : (10 : Rat) ^ places * (x * x.den) = units * x.den := by rw [← mul_assoc, whole]
      rw [Rat.mul_den_eq_num] at scaled
      exact_mod_cast scaled
    have divides : x.den ∣ 10 ^ places * x.num.natAbs := by
      have sizes := congrArg Int.natAbs product
      rw [Int.natAbs_mul, Int.natAbs_mul, Int.natAbs_pow, Int.natAbs_natCast] at sizes
      exact Dvd.intro_left _ sizes.symm
    exact Nat.Coprime.dvd_of_dvd_mul_right x.reduced.symm divides
  · rintro ⟨multiple, exact⟩
    refine ⟨multiple * x.num, ?_⟩
    have power : (10 : Rat) ^ places = x.den * multiple := by exact_mod_cast exact
    rw [power, mul_right_comm, mul_comm (x.den : Rat), Rat.mul_den_eq_num, mul_comm]
    push_cast
    rfl

theorem isLeast_of_decimalPlaces? (found : decimalPlaces? x = some places) :
    IsLeast {enough : Nat | ∃ units : Int, 10 ^ enough * x = units} places := by
  constructor
  · exact exists_units_iff.mpr ((den_dvd_pow_iff found).mpr (Nat.le_refl places))
  · intro enough whole
    exact (den_dvd_pow_iff found).mp (exists_units_iff.mp whole)

theorem not_dvd_pow_of_decimalPlaces?_eq_none (none : decimalPlaces? x = none) (places : Nat) :
    ¬x.den ∣ 10 ^ places := by
  obtain ⟨p, prime, factor, notTwo, notFive⟩ := exists_prime_of_decimalPlaces?_eq_none none
  intro divides
  have ten : p ∣ 2 * 5 := prime.dvd_of_dvd_pow (factor.trans divides)
  obtain two | five := prime.dvd_mul.mp ten
  · exact notTwo ((Nat.prime_dvd_prime_iff_eq prime Nat.prime_two).mp two)
  · exact notFive ((Nat.prime_dvd_prime_iff_eq prime Nat.prime_five).mp five)

/--
The places that a number needs are the least power of ten that makes it whole, and
there are none only if no power does.  They are found by taking two out of the
denominator and then five out of what is left, one at a time, and this ends.
-/
theorem decimalPlaces?_isLeast (x : Rat) :
    (∀ places, decimalPlaces? x = some places ↔
      IsLeast {enough : Nat | ∃ units : Int, 10 ^ enough * x = units} places) ∧
    (decimalPlaces? x = none ↔ ∀ (places : Nat) (units : Int), 10 ^ places * x ≠ units) ∧
    ∃ twos fives : Multiplicity,
      Multiplicity.TakesOut 2 ⟨0, x.den⟩ twos ∧
        Multiplicity.TakesOut 5 ⟨0, twos.rest⟩ fives ∧
        decimalPlaces? x =
          if fives.rest = 1 then some (max twos.count fives.count) else none := by
  have absent : decimalPlaces? x = none →
      ∀ (places : Nat) (units : Int), 10 ^ places * x ≠ units := by
    intro none places units whole
    exact not_dvd_pow_of_decimalPlaces?_eq_none none places (exists_units_iff.mp ⟨units, whole⟩)
  refine ⟨fun places => ⟨isLeast_of_decimalPlaces?, fun least => ?_⟩, ⟨absent, fun never => ?_⟩, ?_⟩
  · obtain ⟨units, whole⟩ := least.1
    cases found : decimalPlaces? x with
    | none => exact absurd whole (absent found places units)
    | some other => rw [(isLeast_of_decimalPlaces? found).unique least]
  · cases found : decimalPlaces? x with
    | none => rfl
    | some places =>
        obtain ⟨units, whole⟩ := (isLeast_of_decimalPlaces? found).1
        exact absurd whole (never places units)
  · have positive := Multiplicity.rest_pos 2 x.den_pos
    exact ⟨_, _, (Multiplicity.takesOut_iff (Nat.le_refl 2) x.den_pos).mpr rfl,
      (Multiplicity.takesOut_iff (by decide) positive).mpr rfl, rfl⟩

/-- Three eighths have three places, and a factor of three in the denominator leaves none. -/
example :
    decimalPlaces? (3 / 8) = some 3 ∧ decimalPlaces? (7 / 12) = none ∧
      decimalPlaces? (9 / 12) = some 2 := by
  decide +kernel

end Number
end ExactFormula
