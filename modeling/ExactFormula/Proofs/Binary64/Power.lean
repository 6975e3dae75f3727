import ExactFormula.Proofs.Binary64.Rounding
import Mathlib.Algebra.Order.Ring.Pow

/-!
# Powers by repeated squaring

A product of binary values is rounded, and so is every product on the way to a power.
The errors of all these roundings add up to that of as many of them as the exponent says.
-/

namespace ExactFormula
namespace Binary64

/-! ## Some roundings -/

/-- The factor by which a rounding can change a number that is not very small. -/
def growth : Rat := 1 + 2 ^ (-52 : Int)

/-- A finite value whose size is a number up to some roundings. -/
def IsNear (steps : Nat) (exact : Rat) (x : Binary64) : Prop :=
  ∃ size, x.size? = some size ∧
    size ≤ exact * growth ^ steps ∧ exact ≤ size * growth ^ steps

theorem growth_pos : 0 < growth := by
  norm_num [growth]

theorem one_le_growth_pow (steps : Nat) : 1 ≤ growth ^ steps :=
  one_le_pow₀ (by norm_num [growth])

/-- The growth of the roundings stays small as long as they are not far too many. -/
theorem growth_pow_le {steps : Nat} (few : steps ≤ 2 ^ 50) : growth ^ steps ≤ 4 / 3 := by
  have decay : 3 / 4 ≤ (1 - (2 : Rat) ^ (-52 : Int)) ^ steps := by
    have bernoulli := one_add_mul_le_pow
      (by norm_num : (-2 : Rat) ≤ -2 ^ (-52 : Int)) steps
    have count : (steps : Rat) ≤ 2 ^ 50 := by exact_mod_cast few
    rw [← sub_eq_add_neg] at bernoulli
    refine le_trans ?_ bernoulli
    have part : (steps : Rat) * 2 ^ (-52 : Int) ≤ 2 ^ 50 * 2 ^ (-52 : Int) := by gcongr
    norm_num at part ⊢
    linarith
  have product : growth ^ steps * (1 - (2 : Rat) ^ (-52 : Int)) ^ steps ≤ 1 := by
    rw [← mul_pow]
    exact pow_le_one₀ (by norm_num [growth]) (by norm_num [growth])
  have positive : 0 ≤ growth ^ steps := zero_le_one.trans (one_le_growth_pow steps)
  have bounded : growth ^ steps * (3 / 4) ≤ 1 := (by gcongr : _ ≤ _).trans product
  linarith

section

variable {x y : Binary64} {p q r s : Rat} {steps others : Nat}

/-- A product of finite values is the exact product, rounded. -/
theorem mul_eq_round (first : x.size? = some p) (second : y.size? = some q) :
    ∃ negative, x * y = round negative (p * q).num.natAbs (p * q).den := by
  cases x with
  | finite a m d =>
      cases y with
      | finite b n e =>
          cases first
          cases second
          exact ⟨a ^^ b, rfl⟩
      | _ => cases second
  | _ => cases first

/-- A quotient of finite values is the exact quotient, rounded. -/
theorem div_eq_round
    (first : x.size? = some p)
    (second : y.size? = some q)
    (nonzero : q ≠ 0) :
    ∃ negative, x / y = round negative (p / q).num.natAbs (p / q).den := by
  cases x with
  | finite a m d =>
      cases y with
      | finite b n e =>
          cases first
          cases second
          have divisor : n ≠ 0 := by
            rintro rfl
            exact nonzero (by rw [magnitude, Nat.cast_zero, zero_mul])
          exact ⟨a ^^ b, if_neg divisor⟩
      | _ => cases second
  | _ => cases first

/-- A few roundings change a number by a third of it at most. -/
theorem IsNear.size_bounds
    (near : IsNear steps r x)
    (few : steps ≤ 2 ^ 50)
    (nonnegative : 0 ≤ r) :
    ∃ size, x.size? = some size ∧ 3 / 4 * r ≤ size ∧ size ≤ 4 / 3 * r := by
  obtain ⟨size, finite, size_le, le_size⟩ := near
  have limit := growth_pow_le few
  have positive : 0 < growth ^ steps := zero_lt_one.trans_le (one_le_growth_pow steps)
  have size_nonneg : 0 ≤ size := by
    by_contra negative
    exact absurd le_size (not_le.mpr ((mul_neg_of_neg_of_pos (not_le.mp negative) positive).trans_le
      nonnegative))
  refine ⟨size, finite, ?_, ?_⟩
  · have bounded : r ≤ size * (4 / 3) := le_size.trans (by gcongr)
    linarith
  · have bounded : size ≤ r * (4 / 3) := size_le.trans (by gcongr)
    linarith

/-- What is rounded once more is near with one more step. -/
theorem IsNear.of_round
    {negative : Bool}
    (size_le : p ≤ r * growth ^ steps)
    (le_size : r ≤ p * growth ^ steps)
    (half_le : 1 / 2 ≤ p)
    (small : p ≤ largest) :
    IsNear (steps + 1) r (round negative p.num.natAbs p.den) := by
  have normal : (2 : Rat) ^ (-1022 : Int) ≤ p := by
    refine le_trans ?_ half_le
    rw [one_div, ← zpow_neg_one]
    exact zpow_le_zpow_right₀ (by norm_num) (by norm_num)
  have size : |p| = p := abs_of_nonneg (by linarith)
  obtain ⟨rounded, isRounded, error⟩ := exists_size?_round_of_normal negative
    (size.symm ▸ normal) (size.symm ▸ small)
  rw [size, abs_le] at error
  have positive : 0 ≤ growth ^ steps := zero_le_one.trans (one_le_growth_pow steps)
  have rounded_le : rounded ≤ p * growth := by
    norm_num [growth] at error ⊢
    linarith
  have le_rounded : p ≤ rounded * growth := by
    norm_num [growth] at error ⊢
    linarith
  refine ⟨rounded, isRounded, ?_, ?_⟩
  · calc rounded ≤ p * growth := rounded_le
      _ ≤ r * growth ^ steps * growth := by
        gcongr
        norm_num [growth]
      _ = r * growth ^ (steps + 1) := by rw [pow_succ]; ring
  · calc r ≤ p * growth ^ steps := le_size
      _ ≤ rounded * growth * growth ^ steps := by gcongr
      _ = rounded * growth ^ (steps + 1) := by rw [pow_succ]; ring

/-- A product has the roundings of both factors and one more. -/
theorem IsNear.mul
    (first : IsNear steps r x)
    (second : IsNear others s y)
    (one_le_first : 1 ≤ r)
    (one_le_second : 1 ≤ s)
    (few : steps + others ≤ 2 ^ 50)
    (small : 4 / 3 * (r * s) ≤ largest) :
    IsNear (steps + others + 1) (r * s) (x * y) := by
  have first_pos : 0 < r := zero_lt_one.trans_le one_le_first
  have second_pos : 0 < s := zero_lt_one.trans_le one_le_second
  obtain ⟨p, finite, p_low, _⟩ := first.size_bounds (by omega) first_pos.le
  obtain ⟨q, finite', q_low, _⟩ := second.size_bounds (by omega) second_pos.le
  obtain ⟨_, same, p_le, le_p⟩ := first
  obtain ⟨_, same', q_le, le_q⟩ := second
  cases finite.symm.trans same
  cases finite'.symm.trans same'
  have growth_pos := growth_pos
  have p_half : 3 / 4 ≤ p := by linarith
  have q_half : 3 / 4 ≤ q := by linarith
  have limit := growth_pow_le few
  have upper : p * q ≤ r * s * growth ^ (steps + others) := by
    calc p * q ≤ (r * growth ^ steps) * (s * growth ^ others) := by gcongr
      _ = r * s * growth ^ (steps + others) := by rw [pow_add]; ring
  have lower : r * s ≤ p * q * growth ^ (steps + others) := by
    calc r * s ≤ (p * growth ^ steps) * (q * growth ^ others) := by gcongr
      _ = p * q * growth ^ (steps + others) := by rw [pow_add]; ring
  have bounded : p * q ≤ largest := by
    calc p * q ≤ r * s * growth ^ (steps + others) := upper
      _ ≤ r * s * (4 / 3) := by gcongr
      _ = 4 / 3 * (r * s) := mul_comm _ _
      _ ≤ largest := small
  have half_le : 1 / 2 ≤ p * q := by
    calc (1 / 2 : Rat) ≤ 3 / 4 * (3 / 4) := by norm_num
      _ ≤ p * q := by gcongr
  obtain ⟨negative, product⟩ := mul_eq_round finite finite'
  rw [product]
  exact .of_round upper lower half_le bounded

theorem IsNear.isFinite (near : IsNear steps r x) : x.isFinite = true := by
  obtain ⟨size, isSize, _⟩ := near
  exact isFinite_iff_size?.mpr ⟨size, isSize⟩

/-- The quotient of two values is finite unless its size is near the largest one. -/
theorem IsNear.isFinite_div
    (first : IsNear steps r x)
    (second : IsNear others s y)
    (few : steps ≤ 2 ^ 50)
    (few' : others ≤ 2 ^ 50)
    (nonnegative : 0 ≤ r)
    (positive : 0 < s)
    (small : 16 / 9 * (r / s) ≤ largest) :
    (x / y).isFinite = true := by
  obtain ⟨p, finite, p_low, p_high⟩ := first.size_bounds few nonnegative
  obtain ⟨q, finite', q_low, _⟩ := second.size_bounds few' positive.le
  have p_nonneg : 0 ≤ p := by linarith
  have q_pos : 0 < q := by linarith
  obtain ⟨negative, quotient⟩ := div_eq_round finite finite' q_pos.ne'
  rw [quotient]
  refine isFinite_round negative ?_
  rw [abs_of_nonneg (by positivity)]
  calc p / q ≤ (4 / 3 * r) / (3 / 4 * s) := by gcongr
    _ = 16 / 9 * (r / s) := by
      rw [mul_div_mul_comm]
      norm_num
    _ ≤ largest := small

end

/-- An integer has at most one rounding. -/
theorem isNear_ofRat_intCast
    {n : Int}
    (nonzero : n ≠ 0)
    (small : (n.natAbs : Rat) ≤ largest) :
    IsNear 1 n.natAbs (ofRat n) := by
  have one_le : (1 : Rat) ≤ n.natAbs := by
    exact_mod_cast Int.natAbs_pos.mpr nonzero
  have near : IsNear (0 + 1) n.natAbs
      (round ((n : Rat) < 0) (n.natAbs : Rat).num.natAbs (n.natAbs : Rat).den) :=
    .of_round (by rw [pow_zero, mul_one]) (by rw [pow_zero, mul_one]) (by linarith) small
  rwa [Rat.num_natCast, Rat.den_natCast, Int.natAbs_natCast] at near

/-! ## Repeated squaring -/

/-- An odd power is that of the square with half the exponent, times the base. -/
theorem pow_of_odd (s : Rat) {exponent : Nat} (odd : exponent % 2 = 1) :
    s ^ exponent = s * (s * s) ^ (exponent / 2) := by
  conv_lhs => rw [show exponent = 1 + 2 * (exponent / 2) by omega, pow_add, pow_one, pow_mul]
  rw [pow_two]

theorem pow_of_even (s : Rat) {exponent : Nat} (even : ¬exponent % 2 = 1) :
    s ^ exponent = (s * s) ^ (exponent / 2) := by
  conv_lhs => rw [show exponent = 2 * (exponent / 2) by omega, pow_mul]
  rw [pow_two]

/-- Repeated squaring has a rounding for each time that the base is a factor. -/
theorem isNear_powerByBits
    {bits steps others exponent : Nat}
    {r s : Rat}
    {result base : Binary64}
    (short : exponent < 2 ^ bits)
    (nearResult : IsNear steps r result)
    (nearBase : exponent ≠ 0 → IsNear others s base)
    (one_le_result : 1 ≤ r)
    (one_le_base : 1 ≤ s)
    (few : steps + (others + 1) * exponent ≤ 2 ^ 50)
    (small : 4 / 3 * (r * s ^ exponent) ≤ largest) :
    IsNear (steps + (others + 1) * exponent) (r * s ^ exponent)
      (powerByBits bits result base exponent) := by
  induction bits generalizing steps others exponent r s result base with
  | zero =>
      obtain rfl : exponent = 0 := by simpa using short
      simpa [powerByBits] using nearResult
  | succ bits inductionHypothesis =>
      have halved : exponent / 2 < 2 ^ bits := by
        rw [pow_succ] at short
        omega
      have nearSquare : exponent / 2 ≠ 0 → IsNear (others + others + 1) (s * s) (base * base) := by
        intro again
        have near := nearBase (by omega)
        have two_le : 2 ≤ exponent := by omega
        have roundings : (others + 1) * 2 ≤ (others + 1) * exponent :=
          Nat.mul_le_mul_left _ two_le
        have square_le : s * s ≤ r * s ^ exponent :=
          calc s * s = 1 * s ^ 2 := by rw [one_mul, pow_two]
            _ ≤ r * s ^ exponent := by gcongr
        exact near.mul near one_le_base one_le_base (by omega)
          ((mul_le_mul_of_nonneg_left square_le (by norm_num)).trans small)
      have one_le_square : 1 ≤ s * s := one_le_mul_of_one_le_of_one_le one_le_base one_le_base
      rw [powerByBits]
      by_cases odd : exponent % 2 = 1
      · have present : exponent ≠ 0 := by omega
        have count : steps + (others + 1) * exponent =
            steps + others + 1 + (others + others + 1 + 1) * (exponent / 2) := by
          conv_lhs => rw [show exponent = 1 + 2 * (exponent / 2) by omega]
          ring
        have power : r * s ^ exponent = r * s * (s * s) ^ (exponent / 2) := by
          rw [pow_of_odd s odd, mul_assoc]
        have product : IsNear (steps + others + 1) (r * s) (result * base) := by
          have roundings : (others + 1) * 1 ≤ (others + 1) * exponent :=
            Nat.mul_le_mul_left _ (by omega)
          refine nearResult.mul (nearBase present) one_le_result one_le_base (by omega)
            (le_trans ?_ small)
          gcongr
          exact le_self_pow₀ one_le_base present
        rw [if_pos odd, count, power]
        exact inductionHypothesis halved product nearSquare
          (one_le_mul_of_one_le_of_one_le one_le_result one_le_base) one_le_square
          (count ▸ few) (power ▸ small)
      · have count : steps + (others + 1) * exponent =
            steps + (others + others + 1 + 1) * (exponent / 2) := by
          conv_lhs => rw [show exponent = 2 * (exponent / 2) by omega]
          ring
        have power : r * s ^ exponent = r * (s * s) ^ (exponent / 2) := by
          rw [pow_of_even s odd]
        rw [if_neg odd, count, power]
        exact inductionHypothesis halved nearResult nearSquare one_le_result one_le_square
          (count ▸ few) (power ▸ small)

/-- A finite value is near its own size, without any rounding. -/
theorem isNear_finite (negative : Bool) (significand : Nat) (exponent : Int) :
    IsNear 0 (magnitude significand exponent) (finite negative significand exponent) :=
  ⟨_, rfl, by rw [pow_zero, mul_one], by rw [pow_zero, mul_one]⟩

theorem isNear_one : IsNear 0 1 one := by
  have near := isNear_finite false leastFull (-52)
  rwa [show magnitude leastFull (-52) = 1 by norm_num [magnitude, leastFull],
    show finite false leastFull (-52) = one by decide +kernel] at near

theorem isNear_two : IsNear 0 2 (ofRat 2) := by
  have near := isNear_finite false leastFull (-51)
  rwa [show magnitude leastFull (-51) = 2 by norm_num [magnitude, leastFull],
    show finite false leastFull (-51) = ofRat 2 by decide +kernel] at near

theorem isNear_ten : IsNear 0 10 ten := by
  have near := isNear_finite false 0x14000000000000 (-49)
  rwa [show magnitude 0x14000000000000 (-49) = 10 by norm_num [magnitude],
    show finite false 0x14000000000000 (-49) = ten by decide +kernel] at near

/-- A power has a rounding for each time that the base is a factor. -/
theorem isNear_power
    {base : Binary64}
    {s : Rat}
    {exponent : Nat}
    (nearBase : IsNear 0 s base)
    (one_le_base : 1 ≤ s)
    (few : exponent ≤ 2 ^ 50)
    (small : 4 / 3 * s ^ exponent ≤ largest) :
    IsNear exponent (s ^ exponent) (power base exponent) := by
  have near := isNear_powerByBits (Nat.lt_log2_self (n := exponent)) isNear_one
    (fun _ => nearBase) le_rfl one_le_base (by omega) (by rwa [one_mul])
  rw [zero_add, zero_add, one_mul, one_mul] at near
  rw [power, Int.natAbs_natCast, if_neg (by omega)]
  exact near

end Binary64
end ExactFormula
