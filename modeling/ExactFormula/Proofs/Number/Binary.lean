import ExactFormula.Number.Binary
import ExactFormula.Proofs.Binary64.Power
import ExactFormula.Proofs.Decimal.Accuracy
import ExactFormula.Proofs.Number.ExactText

/-!
# Which numbers have a binary value

A number with few decimal places has a binary value if it is not too large.  Any other
goes through its decimal of the working precision, whose power of ten has to be within
the range of the powers by which binary values are scaled.  That power is some fifty
places below the number itself, so that small numbers can miss the range although the
binary format has values near them.
-/

namespace ExactFormula
namespace Number

open Binary64 (IsNear largest)

/-! ## The leading bits of a significand -/

/-- Cutting off bits makes an integer at most twice as large. -/
theorem natAbs_ediv_two_pow
    {n : Int}
    {extra : Nat}
    (long : 2 ^ extra ≤ n.natAbs) :
    (n / (2 ^ extra : Nat)).natAbs * 2 ^ extra ≤ 2 * n.natAbs := by
  have division := Int.mul_ediv_add_emod n (2 ^ extra : Nat)
  have positive : (0 : Int) < (2 ^ extra : Nat) := by positivity
  have nonnegative := Int.emod_nonneg n positive.ne'
  have below := Int.emod_lt_of_pos n positive
  have product : ((2 ^ extra : Nat) * (n / (2 ^ extra : Nat))).natAbs =
      (n / (2 ^ extra : Nat)).natAbs * 2 ^ extra := by
    rw [Int.natAbs_mul, Int.natAbs_natCast, mul_comm]
  rw [← product]
  omega

/-- Cutting off bits leaves something of an integer that has more of them. -/
theorem ediv_two_pow_ne_zero
    {n : Int}
    {extra : Nat}
    (long : 2 ^ extra ≤ n.natAbs) :
    n / (2 ^ extra : Nat) ≠ 0 := by
  intro zero
  have positive : (0 : Int) < (2 ^ extra : Nat) := by positivity
  have division := Int.mul_ediv_add_emod n (2 ^ extra : Nat)
  rw [zero, mul_zero, zero_add] at division
  have nonnegative := Int.emod_nonneg n positive.ne'
  have below := Int.emod_lt_of_pos n positive
  omega

/-- What is left of an integer, scaled back, is a binary value that is not much larger. -/
theorem exists_isNear_scaledBack
    {n : Int}
    {extra : Nat}
    (long : 2 ^ extra ≤ n.natAbs)
    (few : extra ≤ 200)
    (small : 4 / 3 * (2 * n.natAbs : Rat) ≤ largest) :
    ∃ exact,
      IsNear (1 + extra + 1) exact
        (Binary64.ofRat (n / (2 ^ extra : Nat) : Int) *
          Binary64.power (Binary64.ofRat 2) extra) ∧
        1 ≤ exact ∧ exact ≤ 2 * n.natAbs := by
  have remains := ediv_two_pow_ne_zero long
  have cut : ((n / (2 ^ extra : Nat)).natAbs : Rat) * 2 ^ extra ≤ 2 * n.natAbs := by
    exact_mod_cast natAbs_ediv_two_pow long
  have one_le_lead : (1 : Rat) ≤ (n / (2 ^ extra : Nat)).natAbs := by
    exact_mod_cast Int.natAbs_pos.mpr remains
  have one_le_power : (1 : Rat) ≤ 2 ^ extra := one_le_pow₀ (by norm_num)
  have lead_le : ((n / (2 ^ extra : Nat)).natAbs : Rat) ≤ 2 * n.natAbs :=
    (le_mul_of_one_le_right (by linarith) one_le_power).trans cut
  have power_le : (2 : Rat) ^ extra ≤ 2 * n.natAbs :=
    (le_mul_of_one_le_left (by linarith) one_le_lead).trans cut
  have lead := Binary64.isNear_ofRat_intCast remains (by linarith)
  have power := Binary64.isNear_power Binary64.isNear_two (by norm_num)
    (show extra ≤ 2 ^ 50 by omega) (by linarith)
  exact ⟨_, lead.mul power one_le_lead one_le_power (by omega) (by linarith),
    one_le_mul_of_one_le_of_one_le one_le_lead one_le_power, cut⟩

/-- The leading bits of a significand are a binary value that is not much larger. -/
theorem exists_isNear_leadingBits
    {significand : Int}
    (nonzero : significand ≠ 0)
    (short : significand.natAbs ≤ 10 ^ 51) :
    ∃ steps exact, IsNear steps exact (leadingBits significand) ∧
      steps ≤ 300 ∧ 1 ≤ exact ∧ exact ≤ 2 * significand.natAbs := by
  have present : 1 ≤ significand.natAbs := Int.natAbs_pos.mpr nonzero
  have size : (significand.natAbs : Rat) ≤ 10 ^ 51 := by exact_mod_cast short
  have limit : (4 / 3 * 10 ^ 52 : Rat) ≤ largest := Binary64.ten_pow_le_largest (by norm_num)
  unfold leadingBits
  by_cases few : Nat.log2 significand.natAbs + 1 ≤ 53
  · have near := Binary64.isNear_ofRat_intCast nonzero (by linarith)
    rw [if_pos few]
    exact ⟨1, significand.natAbs, near, by norm_num, by exact_mod_cast present, by linarith⟩
  · obtain ⟨extra, bits⟩ : ∃ extra, Nat.log2 significand.natAbs + 1 - 53 = extra := ⟨_, rfl⟩
    have log_lt : Nat.log2 significand.natAbs < 170 :=
      (Nat.log2_lt (by omega)).mpr (short.trans_lt (by norm_num))
    have long : 2 ^ extra ≤ significand.natAbs :=
      (Nat.pow_le_pow_right (by decide) (by omega)).trans (Nat.log2_self_le (by omega))
    obtain ⟨exact, near, one_le, exact_le⟩ :=
      exists_isNear_scaledBack long (by omega) (by linarith)
    rw [if_neg few, bits]
    exact ⟨1 + extra + 1, exact, near, by omega, one_le, exact_le⟩

/-! ## Scaling by a power of ten -/

variable {x : Rat} {decimal : Decimal}

section

variable
  (nonzero : decimal.significand ≠ 0)
  (short : decimal.significand.natAbs ≤ 10 ^ 51)
  (small : 8 / 3 * |decimal.toRat| ≤ largest)

include nonzero short small

/-- Scaling by a power of ten that is within reach gives a finite value. -/
theorem isFinite_scaled (within : decimal.exponent.natAbs ≤ largestScale) :
    (if decimal.exponent = 0 then leadingBits decimal.significand
      else if 0 < decimal.exponent then
        leadingBits decimal.significand *
          Binary64.power Binary64.ten decimal.exponent.natAbs
      else leadingBits decimal.significand /
        Binary64.power Binary64.ten decimal.exponent.natAbs).isFinite = true := by
  obtain ⟨steps, exact, lead, few, one_le, exact_le⟩ := exists_isNear_leadingBits nonzero short
  have size : (decimal.significand.natAbs : Rat) ≤ 10 ^ 51 := by exact_mod_cast short
  have one_le_power : (1 : Rat) ≤ 10 ^ decimal.exponent.natAbs := one_le_pow₀ (by norm_num)
  have few' : decimal.exponent.natAbs ≤ 308 := within
  have power := Binary64.isNear_power Binary64.isNear_ten (by norm_num)
    (show decimal.exponent.natAbs ≤ 2 ^ 50 by omega) (Binary64.ten_pow_le_largest within)
  by_cases zero : decimal.exponent = 0
  · rw [if_pos zero]
    exact lead.isFinite
  rw [if_neg zero]
  by_cases positive : 0 < decimal.exponent
  · have product : exact * 10 ^ decimal.exponent.natAbs ≤ 2 * |decimal.toRat| :=
      calc exact * 10 ^ decimal.exponent.natAbs
          ≤ 2 * decimal.significand.natAbs * 10 ^ decimal.exponent.natAbs := by gcongr
        _ = 2 * |decimal.toRat| := by
          rw [Decimal.abs_toRat, mul_assoc]
          conv_rhs => rw [← Int.natAbs_of_nonneg positive.le, zpow_natCast]
    rw [if_pos positive]
    exact (lead.mul power one_le one_le_power (by omega) (by linarith)).isFinite
  · have limit : (4 / 3 * 10 ^ 52 : Rat) ≤ largest := Binary64.ten_pow_le_largest (by norm_num)
    have quotient : exact / 10 ^ decimal.exponent.natAbs ≤ exact :=
      div_le_self (by linarith) one_le_power
    rw [if_neg positive]
    exact lead.isFinite_div power (by omega) (by omega) (by linarith) (by linarith) (by linarith)

/-- A decimal that is not too large has a binary value when its power of ten is within reach. -/
theorem isSome_scaleToBinary?_iff :
    (scaleToBinary? decimal).isSome ↔ decimal.exponent.natAbs ≤ largestScale := by
  unfold scaleToBinary?
  by_cases within : decimal.exponent.natAbs ≤ largestScale
  · rw [if_pos within]
    dsimp only
    rw [if_pos (isFinite_scaled nonzero short small within)]
    exact iff_of_true rfl within
  · rw [if_neg within]
    exact iff_of_false (by simp) within

end

/-! ## Numbers in the range of the format -/

section

variable (high : |x| ≤ 10 ^ 300)

include high

theorem abs_toRat_ofRat_le_largest : 8 / 3 * |(Decimal.ofRat x).toRat| ≤ largest := by
  have near := (Decimal.abs_toRat_ofRat_le x).1
  have power : (10 : Rat) ^ 301 = 10 ^ 300 * 10 := pow_succ ..
  have limit := @Binary64.ten_pow_le_largest 301 (by norm_num)
  have positive : (0 : Rat) < 10 ^ 300 := by positivity
  rw [power] at limit
  generalize (10 : Rat) ^ 300 = bound at high limit positive
  linarith

variable (nonzero : x ≠ 0)

include nonzero

/-- The power of ten of a number in range is not too large. -/
theorem exponent_ofRat_lt : (Decimal.ofRat x).exponent < 301 := by
  have near := (Decimal.abs_toRat_ofRat_le x).1
  have one_le : (1 : Rat) ≤ (Decimal.ofRat x).significand.natAbs := by
    exact_mod_cast Int.natAbs_pos.mpr (Decimal.significand_ofRat_ne_zero nonzero)
  have power : (10 : Rat) ^ (301 : Int) = 10 ^ 300 * 10 := by
    rw [show (301 : Int) = (300 : Nat) + 1 from rfl, zpow_add_one₀ (by norm_num), zpow_natCast]
  refine (zpow_lt_zpow_iff_right₀ (by norm_num : (1 : Rat) < 10)).mp ?_
  calc (10 : Rat) ^ (Decimal.ofRat x).exponent
      = 1 * 10 ^ (Decimal.ofRat x).exponent := (one_mul _).symm
    _ ≤ (Decimal.ofRat x).significand.natAbs * 10 ^ (Decimal.ofRat x).exponent := by gcongr
    _ = |(Decimal.ofRat x).toRat| := (Decimal.abs_toRat _).symm
    _ ≤ 2 * 10 ^ 300 := near.trans (by gcongr)
    _ < 10 ^ (301 : Int) := by
      rw [power, mul_comm]
      gcongr
      norm_num

theorem isSome_scaleToBinary?_ofRat_iff :
    (scaleToBinary? (Decimal.ofRat x)).isSome ↔
      -(largestScale : Int) ≤ (Decimal.ofRat x).exponent := by
  have bounded := exponent_ofRat_lt high nonzero
  rw [isSome_scaleToBinary?_iff (Decimal.significand_ofRat_ne_zero nonzero)
    (Decimal.natAbs_significand_ofRat_le x) (abs_toRat_ofRat_le_largest high)]
  unfold largestScale
  omega

end

/-- The power of ten of a number is within reach if the number is not too small. -/
theorem le_exponent_ofRat (low : (10 : Rat) ^ (-257 : Int) ≤ |x|) :
    -(largestScale : Int) ≤ (Decimal.ofRat x).exponent := by
  by_contra beyond
  have small : (Decimal.ofRat x).exponent ≤ -309 := by
    unfold largestScale at beyond
    omega
  have near := (Decimal.abs_toRat_ofRat_le x).2
  have digits : ((Decimal.ofRat x).significand.natAbs : Rat) ≤ 10 ^ (51 : Int) := by
    exact_mod_cast Decimal.natAbs_significand_ofRat_le x
  have size : |(Decimal.ofRat x).toRat| ≤ 10 ^ (-258 : Int) :=
    calc |(Decimal.ofRat x).toRat|
        = (Decimal.ofRat x).significand.natAbs * 10 ^ (Decimal.ofRat x).exponent :=
          Decimal.abs_toRat _
      _ ≤ 10 ^ (51 : Int) * 10 ^ (-309 : Int) := by
        gcongr
        norm_num
      _ = 10 ^ (-258 : Int) := by
        rw [← zpow_add₀ (by norm_num)]
        rfl
  have power : (10 : Rat) ^ (-257 : Int) = 10 ^ (-258 : Int) * 10 := by
    rw [← zpow_add_one₀ (by norm_num)]
    rfl
  have positive : (0 : Rat) < 10 ^ (-258 : Int) := by positivity
  linarith

theorem any_decimalPlaces?_iff :
    (decimalPlaces? x).any (· ≤ directPlaces) = true ↔
      ∃ places ≤ directPlaces, decimalPlaces? x = some places := by
  simp [Option.any_eq_true, and_comm]

/-- Which numbers have a binary value: those with few places, and those within reach. -/
theorem isSome_toBinary?_iff (high : |x| ≤ 10 ^ 300) :
    (toBinary? x).isSome ↔
      (∃ places ≤ directPlaces, decimalPlaces? x = some places) ∨
        -(largestScale : Int) ≤ (Decimal.ofRat x).exponent := by
  unfold toBinary?
  dsimp only
  by_cases direct : (decimalPlaces? x).any (· ≤ directPlaces) = true
  · have limit := @Binary64.ten_pow_le_largest 300 (by norm_num)
    have positive : (0 : Rat) < 10 ^ 300 := by positivity
    have small : |x| ≤ largest := by
      generalize (10 : Rat) ^ 300 = bound at high limit positive
      linarith
    have finite : (Binary64.ofRat x).isFinite = true := Binary64.isFinite_round _ small
    rw [if_pos direct, if_pos finite]
    exact iff_of_true rfl (.inl (any_decimalPlaces?_iff.mp direct))
  · have nonzero : x ≠ 0 := by
      rintro rfl
      exact direct (by decide)
    rw [if_neg direct, isSome_scaleToBinary?_ofRat_iff high nonzero, ← any_decimalPlaces?_iff,
      or_iff_right direct]

/-- No number has an infinity or the value that is no number for its binary value. -/
theorem isFinite_of_toBinary?_eq_some
    {value : Binary64}
    (found : toBinary? x = some value) :
    value.isFinite = true := by
  have checked : ∀ candidate : Binary64,
      (if candidate.isFinite then some candidate else none) = some value →
        value.isFinite = true := by
    intro candidate kept
    rw [Option.ite_none_right_eq_some] at kept
    obtain ⟨finite, same⟩ := kept
    exact Option.some.inj same ▸ finite
  unfold toBinary? scaleToBinary? at found
  dsimp only at found
  split at found
  · exact checked _ found
  · rw [Option.ite_none_right_eq_some] at found
    exact checked _ found.2

/-! ## The slash of a fraction -/

theorem slash_notMem_fixedText (value : Binary64) (places : Nat) :
    '/' ∉ (value.fixedText places).toList := by
  cases value with
  | nan => exact (by decide : '/' ∉ "NaN".toList)
  | infinite negative =>
      cases negative with
      | false => exact (by decide : '/' ∉ "inf".toList)
      | true => exact (by decide : '/' ∉ "-inf".toList)
  | finite negative significand exponent =>
      intro slash
      rw [Binary64.fixedText, String.toList_ofList] at slash
      exact (isDecimalChar_of_mem_signed (isDecimalChar_of_mem_withPoint _ _) _ slash).ne_slash rfl

theorem slash_notMem_integerText (n : Int) : '/' ∉ (integerText n).toList := by
  intro slash
  rw [integerText, String.toList_ofList] at slash
  exact (isDecimalChar_of_mem_signed (isDecimalChar_of_mem_withPoint _ 0) _ slash).ne_slash rfl

/-- An exact text is a fraction just when there is no finite expansion. -/
theorem slash_mem_exactText_iff : '/' ∈ (exactText x).toList ↔ decimalPlaces? x = none := by
  cases found : decimalPlaces? x with
  | none =>
      rw [toList_exactText_of_none found]
      simp
  | some places =>
      refine iff_of_false (fun slash => ?_) (by simp)
      exact (isDecimalChar_of_mem_decimal (by rw [found]; rfl) _ slash).ne_slash rfl

theorem significantText_eq_exactText
    (missing : toBinary? x = none)
    (figures : Nat) :
    significantText x figures = exactText x := by
  have nonzero : x ≠ 0 := by
    rintro rfl
    exact absurd missing (by decide)
  rw [significantText, if_neg nonzero, missing]

/-- A text with significant figures is a fraction for want of a binary value only. -/
theorem slash_mem_significantText_iff (figures : Nat) :
    '/' ∈ (significantText x figures).toList ↔
      toBinary? x = none ∧ decimalPlaces? x = none := by
  cases found : toBinary? x with
  | none =>
      rw [significantText_eq_exactText found, slash_mem_exactText_iff]
      simp
  | some value =>
      refine iff_of_false (fun slash => ?_) (by simp)
      have finite := isFinite_of_toBinary?_eq_some found
      cases value with
      | nan => cases finite
      | infinite negative => cases finite
      | finite negative significand exponent =>
          unfold significantText at slash
          rw [found] at slash
          split at slash
          · exact absurd slash (by decide)
          dsimp only at slash
          split at slash
          · exact slash_notMem_fixedText _ _ slash
          · rw [String.toList_append, String.toList_append, List.mem_append,
              List.mem_append] at slash
            obtain (mantissa | mark) | order := slash
            · exact slash_notMem_fixedText _ _ mantissa
            · exact absurd mark (by decide)
            · exact slash_notMem_integerText _ order

/-! ## Which texts are fractions -/

/--
A number that is not too large has a binary value if it has few decimal places or if the
power of ten of its decimal can be scaled to, and only then; the second is the case for
every number that is not too small.  Its text with significant figures is a fraction
only if neither holds: then the exact text stands in for it.
-/
theorem toBinary?_in_range (high : |x| ≤ 10 ^ 300) :
    ((toBinary? x).isSome ↔
        (∃ places ≤ directPlaces, decimalPlaces? x = some places) ∨
          -(largestScale : Int) ≤ (Decimal.ofRat x).exponent) ∧
      ((10 : Rat) ^ (-257 : Int) ≤ |x| → (toBinary? x).isSome) ∧
      ∀ figures,
        (toBinary? x = none → significantText x figures = exactText x) ∧
          ('/' ∈ (significantText x figures).toList ↔
            decimalPlaces? x = none ∧ (Decimal.ofRat x).exponent < -(largestScale : Int)) := by
  have present := isSome_toBinary?_iff high
  refine ⟨present, fun low => present.mpr (.inr (le_exponent_ofRat low)), fun figures =>
    ⟨fun missing => significantText_eq_exactText missing figures, ?_⟩⟩
  rw [slash_mem_significantText_iff, ← Option.not_isSome_iff_eq_none, present, not_or, not_le]
  constructor
  · rintro ⟨⟨_, small⟩, infinite⟩
    exact ⟨infinite, small⟩
  · rintro ⟨infinite, small⟩
    refine ⟨⟨?_, small⟩, infinite⟩
    rintro ⟨places, _, finite⟩
    cases infinite.symm.trans finite

theorem toBinary?_in_range_third :
    |(1 : Rat) / (3 * 10 ^ 256)| ≤ 10 ^ 300 ∧
      (10 : Rat) ^ (-257 : Int) ≤ |1 / (3 * 10 ^ 256)| ∧
      (toBinary? (1 / (3 * 10 ^ 256))).isSome := by
  have high : |(1 : Rat) / (3 * 10 ^ 256)| ≤ 10 ^ 300 := by decide +kernel
  have low : (10 : Rat) ^ (-257 : Int) ≤ |1 / (3 * 10 ^ 256)| := by decide +kernel
  exact ⟨high, low, (toBinary?_in_range high).2.1 low⟩

/-- A third of a small power of ten has no binary value, and is written as a fraction. -/
theorem toBinary?_in_range_lost :
    (10 : Rat) ^ (-300 : Int) ≤ |1 / (3 * 10 ^ 290)| ∧
      |(1 : Rat) / (3 * 10 ^ 290)| ≤ 10 ^ 300 ∧
      toBinary? (1 / (3 * 10 ^ 290)) = none ∧
      '/' ∈ (significantText (1 / (3 * 10 ^ 290)) 3).toList := by
  have missing : toBinary? (1 / (3 * 10 ^ 290)) = none := by decide +kernel
  have infinite : decimalPlaces? (1 / (3 * 10 ^ 290)) = none := by decide +kernel
  exact ⟨by decide +kernel, by decide +kernel, missing,
    (slash_mem_significantText_iff 3).mpr ⟨missing, infinite⟩⟩

end Number
end ExactFormula
