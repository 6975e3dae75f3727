import ExactFormula.Proofs.Number.ExactText
import Mathlib.Algebra.Order.Field.Power
import Mathlib.Tactic.NormNum

/-!
# Significant digits

A number with a finite expansion is, but for its sign, a whole number with its point
moved.  There is one such whole number that does not end in a zero, its significand, and
the digits that are significant in the exact text are those of the significand.  No other
whole number that gives the number has fewer.
-/

namespace ExactFormula
namespace Number

/-- The number is, but for its sign, the whole number with its point moved. -/
def IsScaled (x : Rat) (size : Nat) : Prop :=
  ∃ exponent : Int, |x| = size * (10 : Rat) ^ exponent

/-- The whole number that gives the number and does not end in a zero. -/
structure IsSignificand (x : Rat) (significand : Nat) : Prop where
  /-- The significand is not zero. -/
  positive : 0 < significand
  /-- It does not end in a zero. -/
  indivisible : ¬10 ∣ significand
  /-- It has the digits of the number. -/
  scaled : IsScaled x significand

variable {x : Rat} {size significand other places : Nat}

/-! ## Whole numbers with the point moved -/

/-- In a finer unit a whole number has zeros at its end. -/
theorem eq_mul_pow_of_zpow
    {unit : Int}
    {zeros : Nat}
    (same : (size : Rat) * 10 ^ unit = other * 10 ^ (unit + zeros)) :
    size = other * 10 ^ zeros := by
  rw [zpow_add₀ (by norm_num), zpow_natCast, mul_left_comm, mul_comm] at same
  exact_mod_cast mul_left_cancel₀ (zpow_ne_zero unit (by norm_num)) same

theorem ten_dvd_mul_pow_succ (size zeros : Nat) : 10 ∣ size * 10 ^ (zeros + 1) :=
  Dvd.dvd.mul_left (dvd_pow_self 10 zeros.succ_ne_zero) size

/-- The digits of a significand stand in front of zeros only. -/
theorem IsSignificand.exists_eq_mul_pow
    (isSignificand : IsSignificand x significand)
    (scaled : IsScaled x size) :
    ∃ zeros, size = significand * 10 ^ zeros := by
  obtain ⟨unit, value⟩ := scaled
  obtain ⟨coarse, significandValue⟩ := isSignificand.scaled
  obtain le | lt := le_or_gt unit coarse
  · obtain ⟨zeros, rfl⟩ := Int.le.dest le
    exact ⟨zeros, eq_mul_pow_of_zpow (value.symm.trans significandValue)⟩
  -- If the significand had the finer unit, it would end in zeros.
  · obtain ⟨zeros, rfl⟩ := Int.lt.dest lt
    have multiple := eq_mul_pow_of_zpow (significandValue.symm.trans value)
    exact absurd (multiple ▸ ten_dvd_mul_pow_succ size zeros) isSignificand.indivisible

/-- No whole number that gives the number is smaller than its significand. -/
theorem IsSignificand.le
    (isSignificand : IsSignificand x significand)
    (scaled : IsScaled x size) :
    significand ≤ size := by
  obtain ⟨zeros, rfl⟩ := isSignificand.exists_eq_mul_pow scaled
  exact Nat.le_mul_of_pos_right _ (Nat.pow_pos (by decide))

theorem IsSignificand.unique
    (one : IsSignificand x significand)
    (another : IsSignificand x other) :
    other = significand := by
  obtain ⟨zeros, multiple⟩ := one.exists_eq_mul_pow another.scaled
  cases zeros with
  | zero => rwa [pow_zero, mul_one] at multiple
  | succ zeros =>
      exact absurd (multiple ▸ ten_dvd_mul_pow_succ significand zeros) another.indivisible

/-- Zeros at the end of the whole number can be left out. -/
theorem IsScaled.of_mul_pow {zeros : Nat} (scaled : IsScaled x (size * 10 ^ zeros)) :
    IsScaled x size := by
  obtain ⟨exponent, value⟩ := scaled
  refine ⟨zeros + exponent, ?_⟩
  rw [value, zpow_add₀ (by norm_num), zpow_natCast, ← mul_assoc]
  push_cast
  rfl

/-- A number with a finite expansion is the whole number of its units of the last place. -/
theorem isScaled_unitsOf (enough : x.den ∣ 10 ^ places) : IsScaled x (unitsOf x places) := by
  have den : (x.den : Rat) ≠ 0 := Nat.cast_ne_zero.mpr x.den_ne_zero
  have power : (10 : Rat) ^ places ≠ 0 := pow_ne_zero _ (by norm_num)
  refine ⟨-places, ?_⟩
  rw [abs_eq_natAbs_div, zpow_neg, zpow_natCast, ← div_eq_mul_inv, div_eq_div_iff den power]
  exact_mod_cast (unitsOf_mul_den enough).symm

/-- A whole number with its point moved has a finite expansion. -/
theorem IsScaled.exists_units (scaled : IsScaled x size) :
    ∃ (places : Nat) (units : Int), 10 ^ places * x = units := by
  obtain ⟨exponent, value⟩ := scaled
  have whole : 10 ^ (-exponent).toNat * |x| = ((size * 10 ^ exponent.toNat : Nat) : Rat) := by
    have moved : ((-exponent).toNat : Int) + exponent = exponent.toNat := by omega
    rw [value, mul_left_comm, ← zpow_natCast, ← zpow_add₀ (by norm_num), moved, zpow_natCast]
    push_cast
    rfl
  obtain positive | negative := abs_choice x
  · rw [positive] at whole
    exact ⟨(-exponent).toNat, (size * 10 ^ exponent.toNat : Nat), whole⟩
  · rw [negative, mul_neg, neg_eq_iff_eq_neg] at whole
    refine ⟨(-exponent).toNat, -(size * 10 ^ exponent.toNat : Nat), ?_⟩
    rw [whole, Int.cast_neg, Int.cast_natCast]

theorem decimalPlaces?_ne_none_of_units
    {units : Int}
    (whole : 10 ^ places * x = units) :
    decimalPlaces? x ≠ none := by
  intro none
  exact not_dvd_pow_of_decimalPlaces?_eq_none none places (exists_units_iff.mp ⟨units, whole⟩)

/-! ## The digits of an exact text -/

theorem digitsOf_signed
    {negative : Prop}
    [Decidable negative]
    {first : Char}
    (digit : first.isDigit = true)
    (rest : List Char) :
    digitsOf (signed negative (first :: rest)) = (first :: rest).filter (· ≠ '.') := by
  have noMinus : first ≠ '-' := ne_of_isDigit digit rfl
  by_cases minus : negative
  · simp [digitsOf, signed, minus, noMinus]
  · simp [digitsOf, signed, minus, noMinus]

theorem filter_ne_point {digits : List Char} (digital : ∀ c ∈ digits, c.isDigit = true) :
    digits.filter (· ≠ '.') = digits := by
  rw [List.filter_eq_self]
  exact fun c member => decide_eq_true (ne_of_isDigit (digital c member) rfl)

/-- Without its sign and its point, a text has the digits of its units. -/
theorem digitsOf_withPoint
    (negative : Prop)
    [Decidable negative]
    (units places : Nat) :
    (∀ c ∈ digitsOf (signed negative (withPoint (Digits.ofNat units) places)),
        c.isDigit = true) ∧
      Digits.toNat (digitsOf (signed negative (withPoint (Digits.ofNat units) places))) =
        units := by
  obtain rfl | positive := Nat.eq_zero_or_pos places
  · have isWhole := Digits.isWhole_ofNat units
    obtain ⟨first, rest, digits⟩ := List.exists_cons_of_ne_nil isWhole.nonempty
    have value := Digits.toNat_ofNat units
    have digital := isWhole.digits
    rw [withPoint, if_pos rfl]
    rw [digits] at digital value ⊢
    rw [digitsOf_signed (digital first (List.mem_cons_self ..)), filter_ne_point digital]
    exact ⟨digital, value⟩
  · obtain ⟨whole, fraction, text, isWhole, _, digital, value⟩ := exists_withPoint positive units
    have kept : (whole ++ '.' :: fraction).filter (· ≠ '.') = whole ++ fraction := by
      rw [List.filter_append, List.filter_cons_of_neg (by simp), ← List.filter_append,
        filter_ne_point digital]
    obtain ⟨first, rest, rfl⟩ := List.exists_cons_of_ne_nil isWhole.nonempty
    rw [List.cons_append] at text kept
    rw [text, digitsOf_signed (isWhole.digits first (List.mem_cons_self ..)), kept]
    exact ⟨digital, value⟩

/-! ## The number of significant digits -/

theorem significantDigits?_eq_none_iff : significantDigits? x = none ↔ decimalPlaces? x = none :=
  Option.map_eq_none_iff

/-- There is nothing to count just if no power of ten makes the number whole. -/
theorem significantDigits?_eq_none_iff_forall_ne :
    significantDigits? x = none ↔ ∀ (places : Nat) (units : Int), 10 ^ places * x ≠ units := by
  rw [significantDigits?_eq_none_iff]
  constructor
  · intro none places units whole
    exact decimalPlaces?_ne_none_of_units whole none
  · intro never
    by_contra finite
    obtain ⟨places, found⟩ := Option.ne_none_iff_exists'.mp finite
    obtain ⟨units, whole⟩ := (isLeast_of_decimalPlaces? found).1
    exact never places units whole

/-- The digits that are counted are those of the significand. -/
theorem exists_isSignificand (finite : decimalPlaces? x ≠ none) (nonzero : x ≠ 0) :
    ∃ significand, IsSignificand x significand ∧
      significantDigits? x = some (Nat.digits 10 significand).length := by
  obtain ⟨places, found⟩ := Option.ne_none_iff_exists'.mp finite
  have enough := (den_dvd_pow_iff found).mpr (Nat.le_refl places)
  obtain ⟨digital, value⟩ := digitsOf_withPoint (x < 0) (unitsOf x places) places
  rw [← toList_exactText_of_some found] at digital value
  have unitsPositive : 0 < Digits.toNat (digitsOf (exactText x).toList) := by
    rw [value]
    exact Nat.pos_of_ne_zero (mt (unitsOf_eq_zero_iff enough).mp nonzero)
  obtain ⟨positive, indivisible, length⟩ := Digits.significant_of_toNat_pos digital unitsPositive
  obtain ⟨zeros, units⟩ :=
    Digits.exists_toNat_eq_significant_mul (digitsOf (exactText x).toList)
  have scaled := isScaled_unitsOf enough
  rw [← value, units] at scaled
  refine ⟨_, ⟨positive, indivisible, scaled.of_mul_pow⟩, ?_⟩
  rw [significantDigits?, found, Option.map_some, length, Nat.max_eq_right (Digits.count_pos _),
    Digits.count_eq_length_digits positive]

theorem IsSignificand.isLeast (isSignificand : IsSignificand x significand) :
    IsLeast {count | ∃ size, IsScaled x size ∧ (Nat.digits 10 size).length = count}
      (Nat.digits 10 significand).length := by
  refine ⟨⟨significand, isSignificand.scaled, rfl⟩, ?_⟩
  rintro count ⟨size, scaled, rfl⟩
  exact Nat.le_length_digits_le 10 _ _ (isSignificand.le scaled)

/--
The significant digits of a number are those of its significand: of the one whole number
that does not end in a zero and is the number when its sign is left out and its point is
moved.  No whole number that is the number in this way has fewer.  Zero has one
significant digit, and only a number with an infinite expansion has none.
-/
theorem significantDigits?_isLeast (x : Rat) :
    (significantDigits? x = none ↔ ∀ (places : Nat) (units : Int), 10 ^ places * x ≠ units) ∧
      significantDigits? 0 = some 1 ∧
      (x ≠ 0 → (∃ (places : Nat) (units : Int), 10 ^ places * x = units) →
        ∃ significand, (∀ other, IsSignificand x other ↔ other = significand) ∧
          significantDigits? x = some (Nat.digits 10 significand).length) ∧
      (x ≠ 0 → ∀ digits, significantDigits? x = some digits ↔
        IsLeast {count | ∃ size, IsScaled x size ∧ (Nat.digits 10 size).length = count}
          digits) := by
  refine ⟨significantDigits?_eq_none_iff_forall_ne, by decide +kernel, ?_, ?_⟩
  · rintro nonzero ⟨places, units, whole⟩
    obtain ⟨significand, isSignificand, counted⟩ :=
      exists_isSignificand (decimalPlaces?_ne_none_of_units whole) nonzero
    refine ⟨significand, fun other => ⟨isSignificand.unique, ?_⟩, counted⟩
    rintro rfl
    exact isSignificand
  · intro nonzero digits
    constructor
    · intro found
      have finite : decimalPlaces? x ≠ none := by
        rw [Ne, ← significantDigits?_eq_none_iff, found]
        exact Option.some_ne_none digits
      obtain ⟨significand, isSignificand, counted⟩ := exists_isSignificand finite nonzero
      rw [Option.some.inj (found.symm.trans counted)]
      exact isSignificand.isLeast
    · intro least
      obtain ⟨size, scaled, _⟩ := least.1
      obtain ⟨places, units, whole⟩ := scaled.exists_units
      obtain ⟨significand, isSignificand, counted⟩ :=
        exists_isSignificand (decimalPlaces?_ne_none_of_units whole) nonzero
      rw [counted, isSignificand.isLeast.unique least]

/-- The zeros inside are significant, and neither those in front nor those at the end. -/
theorem significantDigits?_isLeast_inner_zeros :
    (-201 / 20 : Rat) ≠ 0 ∧
      (∃ (places : Nat) (units : Int), 10 ^ places * (-201 / 20 : Rat) = units) ∧
      (∃ significand, (∀ other, IsSignificand (-201 / 20) other ↔ other = significand) ∧
        significantDigits? (-201 / 20) = some (Nat.digits 10 significand).length) ∧
      significantDigits? (-201 / 20) = some 4 := by
  have nonzero : (-201 / 20 : Rat) ≠ 0 := by norm_num
  have whole : (10 : Rat) ^ 2 * (-201 / 20) = (-1005 : Int) := by norm_num
  have counted := (significantDigits?_isLeast (-201 / 20)).2.2.1 nonzero ⟨2, -1005, whole⟩
  exact ⟨nonzero, ⟨2, -1005, whole⟩, counted, by decide +kernel⟩

end Number
end ExactFormula
