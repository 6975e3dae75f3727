import ExactFormula.Proofs.Number.ExactText
import ExactFormula.Proofs.Number.Grammar
import Mathlib.Algebra.Order.Round
import Mathlib.Data.Rat.Floor
import Mathlib.Tactic.FieldSimp
import Mathlib.Tactic.Linarith

/-!
# Rounding to decimal places

A text with a fixed number of places writes the decimal of so many places that is
nearest to the number, and of two that are equally near the one farther from zero.
No digit in it is superfluous, and zero has no sign.
-/

namespace ExactFormula
namespace Number

/-- A number rounded to decimal places, a half away from zero. -/
def rounded (x : Rat) (places : Nat) : Rat :=
  let size : Rat := ⌊|x| * 10 ^ places + 1 / 2⌋ / 10 ^ places
  if x < 0 then -size else size

/-- A mantissa with a fixed number of places: no zero too many, and no point without a digit. -/
structure WrittenMantissa.IsFixed (written : WrittenMantissa) (places : Nat) : Prop where
  /-- There is a digit before the point, and no zero in front of another digit. -/
  whole : Digits.IsWhole written.whole
  /-- There are as many digits after the point as there are places; if there are none, no point. -/
  fraction : written.fraction?.map List.length = if places = 0 then none else some places

variable {x : Rat} {places : Nat}

/-! ## Units of the last place -/

/-- The division of whole numbers rounds a half up. -/
theorem unitsOf_eq_floor (x : Rat) (places : Nat) :
    (unitsOf x places : Int) = ⌊|x| * 10 ^ places + 1 / 2⌋ := by
  have den : (x.den : Rat) ≠ 0 := Nat.cast_ne_zero.mpr x.den_ne_zero
  have quotient : |x| * 10 ^ places + 1 / 2 =
      ((2 * (x.num.natAbs * 10 ^ places) + x.den : Nat) : Rat) / ((2 * x.den : Nat) : Rat) := by
    rw [abs_eq_natAbs_div]
    push_cast
    field_simp
  rw [quotient, Rat.floor_natCast_div_natCast]
  rfl

/-- A rounded number is its units of the last place, without a sign if there are none. -/
theorem rounded_eq_signedNumber (x : Rat) (places : Nat) :
    rounded x places =
      signedNumber (x < 0 ∧ unitsOf x places ≠ 0) (unitsOf x places) *
        (10 : Rat) ^ (-(places : Int)) := by
  rw [rounded, ← unitsOf_eq_floor, zpow_neg, zpow_natCast, ← div_eq_mul_inv, signedNumber]
  by_cases negative : x < 0
  · by_cases zero : unitsOf x places = 0
    · simp [zero]
    · rw [if_pos negative, if_pos ⟨negative, zero⟩, Int.cast_neg, neg_div]
  · rw [if_neg negative, if_neg fun both => negative both.1]

theorem rounded_eq_zero_iff : rounded x places = 0 ↔ unitsOf x places = 0 := by
  have power : (10 : Rat) ^ (-(places : Int)) ≠ 0 := zpow_ne_zero _ (by norm_num)
  rw [rounded_eq_signedNumber, mul_eq_zero, or_iff_left power, Int.cast_eq_zero, signedNumber]
  split <;> omega

/-! ## The text -/

section

variable (negative : Prop) [Decidable negative]

theorem signed_eq_text_append (text : List Char) :
    signed negative text = (if negative then Sign.minus else .absent).text ++ text := by
  unfold signed
  split <;> rfl

theorem signedNumber_eq_factor_mul (size : Nat) :
    signedNumber negative size = (if negative then Sign.minus else .absent).factor * size := by
  unfold signedNumber
  split <;> simp [Sign.factor]

end

/-- A text with fixed places is read as the rounded number. -/
theorem read_fixedText (x : Rat) (places : Nat) :
    read (fixedText x places) = .ok (rounded x places) := by
  have decimal : ∀ c ∈ (fixedText x places).toList, IsDecimalChar c := by
    rw [toList_fixedText]
    exact isDecimalChar_of_mem_signed (isDecimalChar_of_mem_withPoint _ places)
  rw [read, trim_eq_self fun c member => (decimal c member).isBlank_eq_false, toList_fixedText,
    readTrimmed_withPoint, rounded_eq_signedNumber]

/-- A mantissa has the value of its digits, with the point moved back. -/
theorem WrittenMantissa.value_eq
    {written : WrittenMantissa}
    {units : Nat}
    (digits : Digits.toNat (written.whole ++ written.fraction) = units) :
    WrittenDecimal.value ⟨written, none⟩ =
      ((written.sign.factor * units : Int) : Rat) *
        (10 : Rat) ^ (-(written.fraction.length : Int)) := by
  rw [WrittenDecimal.value_without_exponent, significand, ← Digits.toNat_eq_positional, digits]

/-- Units with a sign, and a point before the last places, are a mantissa. -/
theorem exists_written_withPoint
    (sign : Sign)
    (units places : Nat) :
    ∃ written : WrittenMantissa,
      written.text = sign.text ++ withPoint (Digits.ofNat units) places ∧
        written.sign = sign ∧ written.IsFixed places ∧
        WrittenDecimal.value ⟨written, none⟩ =
          ((sign.factor * units : Int) : Rat) * (10 : Rat) ^ (-(places : Int)) := by
  obtain rfl | positive := Nat.eq_zero_or_pos places
  · have isWhole := Digits.isWhole_ofNat units
    refine ⟨⟨sign, Digits.ofNat units, none, ?_, ?_⟩, ?_, rfl, ⟨isWhole, rfl⟩, ?_⟩
    · simpa using isWhole.nonempty
    · simpa using isWhole.digits
    · rw [WrittenMantissa.text, Option.elim_none, List.append_nil, withPoint, if_pos rfl]
    · refine WrittenMantissa.value_eq (?_ : Digits.toNat (Digits.ofNat units ++ []) = units)
      rw [List.append_nil, Digits.toNat_ofNat]
  · obtain ⟨whole, fraction, text, isWhole, length, digits, value⟩ :=
      exists_withPoint positive units
    refine ⟨⟨sign, whole, some fraction, ?_, digits⟩, ?_, rfl, ⟨isWhole, ?_⟩, ?_⟩
    · exact List.append_ne_nil_of_left_ne_nil isWhole.nonempty _
    · rw [text]
      rfl
    · rw [Option.map_some, length, if_neg positive.ne']
    · rw [← length]
      exact WrittenMantissa.value_eq value

/-- The text writes the rounded number, with a minus sign where that is below zero. -/
theorem exists_written_fixedText (x : Rat) (places : Nat) :
    ∃ written : WrittenMantissa,
      (fixedText x places).toList = written.text ∧
        written.sign = (if x < 0 ∧ rounded x places ≠ 0 then .minus else .absent) ∧
        written.IsFixed places ∧
        WrittenDecimal.value ⟨written, none⟩ = rounded x places := by
  have signs : (x < 0 ∧ rounded x places ≠ 0) ↔ x < 0 ∧ unitsOf x places ≠ 0 := by
    rw [ne_eq, rounded_eq_zero_iff]
  obtain ⟨written, text, sign, fixed, value⟩ := exists_written_withPoint
    (if x < 0 ∧ unitsOf x places ≠ 0 then .minus else .absent) (unitsOf x places) places
  refine ⟨written, ?_, ?_, fixed, ?_⟩
  · rw [toList_fixedText, text, signed_eq_text_append]
  · simp only [sign, signs]
  · rw [value, rounded_eq_signedNumber, signedNumber_eq_factor_mul]

/-! ## The error -/

theorem abs_rounded (x : Rat) (places : Nat) :
    |rounded x places| = ⌊|x| * 10 ^ places + 1 / 2⌋ / 10 ^ places := by
  have size : (0 : Rat) ≤ ⌊|x| * 10 ^ places + 1 / 2⌋ / 10 ^ places := by
    rw [← unitsOf_eq_floor]
    positivity
  rw [rounded]
  split
  · rw [abs_neg, abs_of_nonneg size]
  · exact abs_of_nonneg size

/-- The rounded number has the sign of the number, if any. -/
theorem rounded_nonneg (positive : 0 ≤ x) : 0 ≤ rounded x places := by
  rw [← abs_eq_self, abs_rounded, rounded, if_neg (not_lt.mpr positive)]

theorem rounded_nonpos (negative : x < 0) : rounded x places ≤ 0 := by
  rw [← abs_eq_neg_self, abs_rounded, rounded, if_pos negative, neg_neg]

/-- The error in units of the last place is that of rounding to a whole number. -/
theorem abs_rounded_sub_mul (x : Rat) (places : Nat) :
    |rounded x places - x| * 10 ^ places =
      |(round (|x| * 10 ^ places) : Rat) - |x| * 10 ^ places| := by
  have power : (0 : Rat) < 10 ^ places := by positivity
  have sizes : |rounded x places - x| =
      abs ((round (|x| * 10 ^ places) : Rat) / 10 ^ places - |x|) := by
    rw [rounded, round_eq]
    split
    · rename_i negative
      rw [abs_of_neg negative, ← abs_neg, neg_sub, sub_neg_eq_add, sub_neg_eq_add, add_comm]
    · rename_i positive
      rw [abs_of_nonneg (not_lt.mp positive)]
  calc |rounded x places - x| * 10 ^ places
      = abs ((round (|x| * 10 ^ places) : Rat) / 10 ^ places - |x|) * |10 ^ places| := by
        rw [sizes, abs_of_pos power]
    _ = |(round (|x| * 10 ^ places) : Rat) - |x| * 10 ^ places| := by
        rw [← abs_mul, sub_mul, div_mul_cancel₀ _ power.ne']

/-- A number is rounded by half a unit of the last place at most. -/
theorem abs_rounded_sub_le (x : Rat) (places : Nat) :
    |rounded x places - x| ≤ (10 : Rat) ^ (-(places : Int)) / 2 := by
  have power : (0 : Rat) < 10 ^ places := by positivity
  have bound : |rounded x places - x| * 10 ^ places ≤ 1 / 2 := by
    rw [abs_rounded_sub_mul, abs_sub_comm]
    exact abs_sub_round _
  calc |rounded x places - x| ≤ 1 / 2 / 10 ^ places := (le_div_iff₀ power).mpr bound
    _ = (10 : Rat) ^ (-(places : Int)) / 2 := by rw [zpow_neg, zpow_natCast]; ring

/-- A number between two decimals that are equally near goes to the one farther from zero. -/
theorem abs_lt_abs_rounded
    (tie : |rounded x places - x| = (10 : Rat) ^ (-(places : Int)) / 2) :
    |x| < |rounded x places| := by
  have power : (0 : Rat) < 10 ^ places := by positivity
  have half : |(round (|x| * 10 ^ places) : Rat) - |x| * 10 ^ places| = 1 / 2 := by
    rw [← abs_rounded_sub_mul, tie, zpow_neg, zpow_natCast]
    field_simp
  have above := sub_half_lt_round (|x| * 10 ^ places)
  have farther : |x| * 10 ^ places < (round (|x| * 10 ^ places) : Rat) := by
    obtain up | down := (abs_eq (by norm_num)).mp half
    · linarith
    · linarith
  rw [abs_rounded, ← round_eq, lt_div_iff₀ power]
  exact farther

/-- Nothing is rounded off a whole number of units of the last place. -/
theorem rounded_eq_self_iff :
    rounded x places = x ↔ ∃ units : Int, 10 ^ places * x = units := by
  have power : (0 : Rat) < 10 ^ places := by positivity
  constructor
  · intro same
    refine ⟨signedNumber (x < 0 ∧ unitsOf x places ≠ 0) (unitsOf x places), ?_⟩
    calc 10 ^ places * x = 10 ^ places * rounded x places := by rw [same]
      _ = _ := by
        rw [rounded_eq_signedNumber, zpow_neg, zpow_natCast, mul_comm,
          inv_mul_cancel_right₀ power.ne']
  · rintro ⟨units, whole⟩
    have scaled : |x| * 10 ^ places = ((|units| : Int) : Rat) := by
      rw [Int.cast_abs, ← whole, abs_mul, abs_of_pos power, mul_comm]
    have error : |rounded x places - x| * 10 ^ places = 0 := by
      rw [abs_rounded_sub_mul, scaled, round_intCast, sub_self, abs_zero]
    exact sub_eq_zero.mp (abs_eq_zero.mp ((mul_eq_zero.mp error).resolve_right power.ne'))

/--
A text with fixed places is rounded correctly.  It writes a decimal that has the sign of
the number and its size in units of the last place, a half rounded up.  It has so many
places, no zero too many, and a minus sign just where a number below zero is not rounded
to zero.  What is read back is half a unit away at most, farther from zero where it is
half a unit away, and the number itself just if that is a whole number of units.
-/
theorem fixedText_rounds (x : Rat) (places : Nat) :
    |rounded x places| = ⌊|x| * 10 ^ places + 1 / 2⌋ / 10 ^ places ∧
      (0 ≤ x → 0 ≤ rounded x places) ∧
      (x < 0 → rounded x places ≤ 0) ∧
      (∃ written : WrittenMantissa,
        (fixedText x places).toList = written.text ∧
          written.sign = (if x < 0 ∧ rounded x places ≠ 0 then .minus else .absent) ∧
          written.IsFixed places ∧
          WrittenDecimal.value ⟨written, none⟩ = rounded x places) ∧
      read (fixedText x places) = .ok (rounded x places) ∧
      |rounded x places - x| ≤ (10 : Rat) ^ (-(places : Int)) / 2 ∧
      (|rounded x places - x| = (10 : Rat) ^ (-(places : Int)) / 2 →
        |x| < |rounded x places|) ∧
      (rounded x places = x ↔ ∃ units : Int, 10 ^ places * x = units) :=
  ⟨abs_rounded x places, rounded_nonneg, rounded_nonpos, exists_written_fixedText x places,
    read_fixedText x places, abs_rounded_sub_le x places, abs_lt_abs_rounded,
    rounded_eq_self_iff⟩

/-- A half goes away from zero on both sides, a carry crosses the point, and zero has no sign. -/
example :
    fixedText (5 / 2) 0 = "3" ∧ fixedText (-5 / 2) 0 = "-3" ∧
      fixedText (1999 / 200) 2 = "10.00" ∧ fixedText (-1 / 1000) 2 = "0.00" := by
  decide +kernel

end Number
end ExactFormula
