import ExactFormula.Number.Reading
import ExactFormula.Proofs.Json.Quoted
import ExactFormula.Proofs.Number.Places
import ExactFormula.Proofs.Text.Digits

/-!
# Exact texts

The exact text of a number is read back as that number, by itself and as a JSON
string.  It is the only text of its form for the number: there is no zero too
many, no sign on zero, and no fraction where a decimal would do.
-/

namespace ExactFormula
namespace Number

/-- A text with a minus sign in front of it, or without one. -/
def signed (negative : Prop) [Decidable negative] (text : List Char) : List Char :=
  if negative then '-' :: text else text

/-! ## The characters of a text -/

/-- A character that can stand in a decimal without an exponent. -/
def IsDecimalChar (c : Char) : Prop :=
  c.isDigit = true ∨ c = '-' ∨ c = '.'

theorem ne_of_isDigit
    {c other : Char}
    (digit : c.isDigit = true)
    (differs : other.isDigit = false) :
    c ≠ other := by
  rintro rfl
  simp [digit] at differs

/-- No character of a decimal is a blank. -/
theorem IsDecimalChar.isBlank_eq_false {c : Char} (decimal : IsDecimalChar c) :
    Text.isBlank c = false := by
  obtain digit | rfl | rfl := decimal
  · have bounds := Digits.toNat_mem_of_isDigit digit
    simp [Text.isBlank, Text.blankRanges]
    omega
  · decide
  · decide

theorem IsDecimalChar.isExponentMark_eq_false {c : Char} (decimal : IsDecimalChar c) :
    isExponentMark c = false := by
  obtain digit | rfl | rfl := decimal
  · simp [isExponentMark, ne_of_isDigit digit]
  · decide
  · decide

theorem IsDecimalChar.ne_slash {c : Char} (decimal : IsDecimalChar c) : c ≠ '/' := by
  obtain digit | rfl | rfl := decimal
  · exact ne_of_isDigit digit rfl
  · decide
  · decide

/-- A text without blanks is left alone by trimming. -/
theorem trim_eq_self {text : List Char} (unblank : ∀ c ∈ text, Text.isBlank c = false) :
    Text.trim text = text := by
  have keeps : ∀ other : List Char, (∀ c ∈ other, Text.isBlank c = false) →
      other.dropWhile Text.isBlank = other := by
    intro other unblank
    cases other with
    | nil => rfl
    | cons c rest => exact List.dropWhile_cons_of_neg (by simp [unblank c (by simp)])
  rw [Text.trim, keeps text unblank, keeps _ (by simpa using unblank), List.reverse_reverse]

theorem isDecimalChar_of_mem_signed
    {negative : Prop}
    [Decidable negative]
    {text : List Char}
    (decimal : ∀ c ∈ text, IsDecimalChar c) :
    ∀ c ∈ signed negative text, IsDecimalChar c := by
  intro c member
  unfold signed at member
  split at member
  · obtain rfl | later := List.mem_cons.mp member
    · exact .inr (.inl rfl)
    · exact decimal c later
  · exact decimal c member

/-! ## Reading -/

/-- The sign that was put in front is taken off again. -/
theorem takeSign_signed
    {negative : Prop}
    [Decidable negative]
    {first : Char}
    (digit : first.isDigit = true)
    (rest : List Char) :
    takeSign (signed negative (first :: rest)) = (decide negative, first :: rest) := by
  have noMinus : first ≠ '-' := ne_of_isDigit digit rfl
  have noPlus : first ≠ '+' := ne_of_isDigit digit rfl
  by_cases minus : negative
  · simp [signed, minus, takeSign]
  · simp [signed, minus, takeSign, noMinus, noPlus]

/-- What a sign and digits write. -/
def signedNumber (negative : Prop) [Decidable negative] (size : Nat) : Int :=
  if negative then -(size : Int) else size

section

variable {negative : Prop} [Decidable negative] {whole fraction : List Char}

/-- Digits alone are read with their sign, and with no places. -/
theorem readMantissa?_signed
    (nonempty : whole ≠ [])
    (digits : ∀ c ∈ whole, c.isDigit = true) :
    readMantissa? (signed negative whole) =
      some (signedNumber negative (Digits.toNat whole), 0) := by
  obtain ⟨first, rest, rfl⟩ := List.exists_cons_of_ne_nil nonempty
  have uncut : Text.cutAt (· = '.') (first :: rest) = none := by
    rw [Text.cutAt_eq_none_iff]
    exact fun c member => decide_eq_false (ne_of_isDigit (digits c member) rfl)
  have digital : (first :: rest).all Char.isDigit = true := List.all_eq_true.mpr digits
  simp only [readMantissa?, takeSign_signed (digits first (by simp)), uncut, Option.getD_none,
    List.append_nil, List.length_nil]
  rw [if_pos ⟨nonempty, digital⟩]
  simp [signedNumber]

/-- Digits around a point are read together, and those after the point are the places. -/
theorem readMantissa?_signed_point
    (nonempty : whole ≠ [])
    (digits : ∀ c ∈ whole ++ fraction, c.isDigit = true) :
    readMantissa? (signed negative (whole ++ '.' :: fraction)) =
      some (signedNumber negative (Digits.toNat (whole ++ fraction)), fraction.length) := by
  obtain ⟨first, rest, rfl⟩ := List.exists_cons_of_ne_nil nonempty
  have cut : Text.cutAt (· = '.') (first :: rest ++ '.' :: fraction) =
      some (first :: rest, fraction) := by
    rw [Text.cutAt_eq_some_iff]
    refine ⟨fun c member => ?_, '.', by simp, rfl⟩
    exact decide_eq_false (ne_of_isDigit (digits c (List.mem_append_left _ member)) rfl)
  have digital : (first :: rest ++ fraction).all Char.isDigit = true := List.all_eq_true.mpr digits
  rw [List.cons_append] at cut ⊢
  simp only [readMantissa?, takeSign_signed (digits first (by simp)), cut, Option.getD_some]
  rw [if_pos ⟨by simp, digital⟩]
  simp [signedNumber]

/-- A text without an exponent mark is read as its digits, with the point moved back. -/
theorem readDecimal?_of_readMantissa?
    {text : List Char}
    {significand : Int}
    {places : Nat}
    (decimal : ∀ c ∈ text, IsDecimalChar c)
    (mantissa : readMantissa? text = some (significand, places)) :
    readDecimal? text = some (significand * (10 : Rat) ^ (-(places : Int))) := by
  have uncut : Text.cutAt isExponentMark text = none := by
    rw [Text.cutAt_eq_none_iff]
    exact fun c member => (decimal c member).isExponentMark_eq_false
  rw [readDecimal?, uncut]
  simp [mantissa]

end

/-! ## The form of a decimal -/

/-- A point before the last places leaves a whole number in front of it. -/
theorem exists_withPoint
    {places : Nat}
    (positive : 0 < places)
    (units : Nat) :
    ∃ whole fraction,
      withPoint (Digits.ofNat units) places = whole ++ '.' :: fraction ∧
        Digits.IsWhole whole ∧ fraction.length = places ∧
        (∀ c ∈ whole ++ fraction, c.isDigit = true) ∧ Digits.toNat (whole ++ fraction) = units := by
  have isWhole := Digits.isWhole_ofNat units
  have length := Digits.length_padded (places + 1) (Digits.ofNat units)
  refine ⟨_, _, by rw [withPoint, if_neg positive.ne'], isWhole.take_padded positive, ?_, ?_, ?_⟩
  · rw [List.length_drop]
    omega
  · rw [List.take_append_drop]
    exact Digits.isDigit_of_mem_padded isWhole.digits
  · rw [List.take_append_drop, Digits.toNat_padded, Digits.toNat_ofNat]

theorem isDecimalChar_of_mem_withPoint (units places : Nat) :
    ∀ c ∈ withPoint (Digits.ofNat units) places, IsDecimalChar c := by
  intro c member
  obtain rfl | positive := Nat.eq_zero_or_pos places
  · exact .inl ((Digits.isWhole_ofNat units).digits c member)
  · obtain ⟨whole, fraction, text, _, _, digits, _⟩ := exists_withPoint positive units
    rw [text, List.mem_append, List.mem_cons] at member
    obtain before | rfl | after := member
    · exact .inl (digits c (List.mem_append_left _ before))
    · exact .inr (.inr rfl)
    · exact .inl (digits c (List.mem_append_right _ after))

/-- Digits with a point in them are read as so many units of the last place. -/
theorem readDecimal?_withPoint
    (negative : Prop)
    [Decidable negative]
    (units places : Nat) :
    readDecimal? (signed negative (withPoint (Digits.ofNat units) places)) =
      some (signedNumber negative units * (10 : Rat) ^ (-(places : Int))) := by
  refine readDecimal?_of_readMantissa?
    (isDecimalChar_of_mem_signed (isDecimalChar_of_mem_withPoint _ _)) ?_
  obtain rfl | positive := Nat.eq_zero_or_pos places
  · have isWhole := Digits.isWhole_ofNat units
    rw [withPoint, if_pos rfl, readMantissa?_signed isWhole.nonempty isWhole.digits,
      Digits.toNat_ofNat]
  · obtain ⟨whole, fraction, text, isWhole, length, digits, value⟩ :=
      exists_withPoint positive units
    rw [text, readMantissa?_signed_point isWhole.nonempty digits, value, length]

/-- A text that is a decimal is read as a number. -/
theorem readTrimmed_of_readDecimal?
    {text : List Char}
    {x : Rat}
    (decimal : ∀ c ∈ text, IsDecimalChar c)
    (value : readDecimal? text = some x) :
    readTrimmed text = .ok x := by
  have uncut : Text.cutAt (· = '/') text = none := by
    rw [Text.cutAt_eq_none_iff]
    exact fun c member => decide_eq_false (decimal c member).ne_slash
  rw [readTrimmed, uncut, value]

/-- Units with a sign, and a point before the last places, are read as what they write. -/
theorem readTrimmed_withPoint
    (negative : Prop)
    [Decidable negative]
    (units places : Nat) :
    readTrimmed (signed negative (withPoint (Digits.ofNat units) places)) =
      .ok (signedNumber negative units * (10 : Rat) ^ (-(places : Int))) :=
  readTrimmed_of_readDecimal?
    (isDecimalChar_of_mem_signed (isDecimalChar_of_mem_withPoint units places))
    (readDecimal?_withPoint negative units places)

/-! ## The exact text -/

/--
A text with fixed places is the rounded units of the last place, with a sign unless they are zero.
-/
theorem toList_fixedText (x : Rat) (places : Nat) :
    (fixedText x places).toList =
      signed (x < 0 ∧ unitsOf x places ≠ 0)
        (withPoint (Digits.ofNat (unitsOf x places)) places) := by
  simp only [fixedText, String.toList_ofList]
  rfl

section

variable {x : Rat} {places : Nat}

/-- A number with a finite decimal is written with as many places as it needs. -/
theorem toList_exactText_of_some (found : decimalPlaces? x = some places) :
    (exactText x).toList = signed (x < 0) (withPoint (Digits.ofNat (unitsOf x places)) places) := by
  have enough := (den_dvd_pow_iff found).mpr (Nat.le_refl places)
  have sign : (x < 0 ∧ unitsOf x places ≠ 0) ↔ x < 0 := by
    rw [ne_eq, unitsOf_eq_zero_iff enough]
    exact and_iff_left_of_imp fun negative => negative.ne
  simp only [exactText, found, toList_fixedText, sign]

/-- Any other number is written as a fraction in lowest terms. -/
theorem toList_exactText_of_none (none : decimalPlaces? x = none) :
    (exactText x).toList =
      signed (x.num < 0) (Digits.ofNat x.num.natAbs) ++ '/' :: Digits.ofNat x.den := by
  have positive : ¬(x.den : Int) < 0 := Int.not_lt.mpr (Int.natCast_nonneg _)
  simp only [exactText, none, integerText, String.toList_append, String.toList_ofList, positive,
    if_false, Int.natAbs_natCast]
  simp [signed]

end

/-! ## The round trip -/

/-- An exact text has the characters of decimals, and a slash in a fraction. -/
theorem isDecimalChar_of_mem_exactText {x : Rat} :
    ∀ c ∈ (exactText x).toList, IsDecimalChar c ∨ c = '/' := by
  intro c member
  cases found : decimalPlaces? x with
  | some places =>
      rw [toList_exactText_of_some found] at member
      exact .inl (isDecimalChar_of_mem_signed (isDecimalChar_of_mem_withPoint _ _) c member)
  | none =>
      rw [toList_exactText_of_none found, List.mem_append, List.mem_cons] at member
      obtain before | slash | after := member
      · exact .inl (isDecimalChar_of_mem_signed (isDecimalChar_of_mem_withPoint _ 0) c before)
      · exact .inr slash
      · exact .inl (isDecimalChar_of_mem_withPoint _ 0 c after)

/-- Two decimals with a slash between them are read as their quotient. -/
theorem readTrimmed_fraction
    {numerator denominator : List Char}
    {x y : Rat}
    (above : ∀ c ∈ numerator, IsDecimalChar c)
    (below : ∀ c ∈ denominator, IsDecimalChar c)
    (valueAbove : readDecimal? numerator = some x)
    (valueBelow : readDecimal? denominator = some y) :
    readTrimmed (numerator ++ '/' :: denominator) = divide x y := by
  have cut : Text.cutAt (· = '/') (numerator ++ '/' :: denominator) =
      some (numerator, denominator) := by
    rw [Text.cutAt_eq_some_iff]
    exact ⟨fun c member => decide_eq_false (above c member).ne_slash, '/', by simp, rfl⟩
  rw [readTrimmed, cut]
  dsimp only
  rw [trim_eq_self fun c member => (above c member).isBlank_eq_false,
    trim_eq_self fun c member => (below c member).isBlank_eq_false, valueAbove, valueBelow]

/-- Reading undoes the exact text. -/
theorem read_exactText_eq_ok (x : Rat) : read (exactText x) = .ok x := by
  have unblank : ∀ c ∈ (exactText x).toList, Text.isBlank c = false := by
    intro c member
    obtain decimal | rfl := isDecimalChar_of_mem_exactText c member
    · exact decimal.isBlank_eq_false
    · decide
  rw [read, trim_eq_self unblank]
  cases found : decimalPlaces? x with
  | some places =>
      have enough := (den_dvd_pow_iff found).mpr (Nat.le_refl places)
      rw [toList_exactText_of_some found, readTrimmed_withPoint]
      exact congrArg Except.ok (signed_unitsOf_mul_zpow enough)
  | none =>
      rw [toList_exactText_of_none found]
      have above := readDecimal?_withPoint (x.num < 0) x.num.natAbs 0
      have below := readDecimal?_withPoint False x.den 0
      refine (readTrimmed_fraction
        (isDecimalChar_of_mem_signed (isDecimalChar_of_mem_withPoint _ 0))
        (isDecimalChar_of_mem_withPoint _ 0) above below).trans ?_
      have numerator : signedNumber (x.num < 0) x.num.natAbs = x.num := by
        unfold signedNumber
        split <;> omega
      have denominator : signedNumber False x.den = x.den := if_neg not_false
      rw [numerator, denominator, Int.cast_natCast, Int.ofNat_zero, neg_zero, zpow_zero, mul_one,
        mul_one, divide, if_neg (Nat.cast_ne_zero.mpr x.den_ne_zero), Rat.num_div_den]

/-- Different numbers have different exact texts. -/
theorem exactText_injective : Function.Injective exactText := by
  intro x y same
  have value := read_exactText_eq_ok x
  rw [same, read_exactText_eq_ok y, Except.ok.injEq] at value
  exact value.symm

theorem toList_exactText_ne_nil (x : Rat) : (exactText x).toList ≠ [] := by
  intro empty
  have value := read_exactText_eq_ok x
  rw [read, empty] at value
  cases value

/-- A finite decimal is written with digits, a sign and a point. -/
theorem isDecimalChar_of_mem_decimal
    {x : Rat}
    (finite : (decimalPlaces? x).isSome = true) :
    ∀ c ∈ (exactText x).toList, IsDecimalChar c := by
  obtain ⟨places, found⟩ := Option.isSome_iff_exists.mp finite
  rw [toList_exactText_of_some found]
  exact isDecimalChar_of_mem_signed (isDecimalChar_of_mem_withPoint _ places)

/-- A decimal needs no escapes in JSON. -/
theorem IsDecimalChar.isUnescaped {c : Char} (decimal : IsDecimalChar c) : Json.IsUnescaped c := by
  obtain digit | rfl | rfl := decimal
  · have bounds := Digits.toNat_mem_of_isDigit digit
    exact ⟨ne_of_isDigit digit rfl, ne_of_isDigit digit rfl, by omega⟩
  · exact ⟨by decide, by decide, by decide⟩
  · exact ⟨by decide, by decide, by decide⟩

/-- A number is read back from its JSON text. -/
theorem readJson?_jsonText (x : Rat) : readJson? (jsonText x) = some x := by
  have unescaped : ∀ c ∈ (exactText x).toList, Json.IsUnescaped c := by
    intro c member
    obtain decimal | rfl := isDecimalChar_of_mem_exactText c member
    · exact decimal.isUnescaped
    · exact ⟨by decide, by decide, by decide⟩
  have text : (jsonText x).toList = '"' :: (exactText x).toList ++ ['"'] := by
    rw [jsonText, String.toList_append, String.toList_append]
    rfl
  rw [readJson?, text, Json.parse?_quoted unescaped]
  simp [Json.text?, Json.decode?_eq_self unescaped, read_exactText_eq_ok, Except.toOption]

/-! ## The form of exact texts -/

/-- The text of a number without its sign: a whole number, a decimal, or a fraction. -/
inductive IsExactSize : List Char → Prop
  /-- No zero stands in front. -/
  | whole {digits : List Char} : Digits.IsWhole digits → IsExactSize digits
  /-- No zero stands in front, and none at the end. -/
  | decimal
      {whole fraction : List Char} :
      Digits.IsWhole whole → fraction ≠ [] → (∀ c ∈ fraction, c.isDigit = true) →
      fraction.getLast? ≠ some '0' → IsExactSize (whole ++ '.' :: fraction)
  /-- The terms are the lowest, and no power of ten is a multiple of the denominator. -/
  | fraction
      {numerator denominator : List Char} :
      Digits.IsWhole numerator → Digits.IsWhole denominator →
      (Digits.toNat numerator).Coprime (Digits.toNat denominator) →
      1 < Digits.toNat denominator →
      (∃ p, p.Prime ∧ p ∣ Digits.toNat denominator ∧ p ≠ 2 ∧ p ≠ 5) →
      IsExactSize (numerator ++ '/' :: denominator)

/-- The text of a number: its size, after a minus sign unless it is zero. -/
inductive IsExact : List Char → Prop
  | plain {size : List Char} : IsExactSize size → IsExact size
  | minus {size : List Char} : IsExactSize size → size ≠ ['0'] → IsExact ('-' :: size)

/-- A sign in front of the size of a number gives an exact text, unless the size is zero. -/
theorem isExact_signed
    {negative : Prop}
    [Decidable negative]
    {size : List Char}
    (exact : IsExactSize size)
    (nonzero : negative → size ≠ ['0']) :
    IsExact (signed negative size) := by
  unfold signed
  split
  · rename_i isNegative
    exact .minus exact (nonzero isNegative)
  · exact .plain exact

/-- A last digit of zero would make the number a multiple of ten. -/
theorem getLast?_ne_zero_of_not_dvd
    (whole : List Char)
    {fraction : List Char}
    (indivisible : ¬10 ∣ Digits.toNat (whole ++ fraction)) :
    fraction.getLast? ≠ some '0' := by
  intro zero
  obtain ⟨before, rfl⟩ := List.getLast?_eq_some_iff.mp zero
  refine indivisible ⟨Digits.toNat (whole ++ before), ?_⟩
  rw [← List.append_assoc, Digits.toNat_concat]
  rfl

/-- A decimal with the least number of places that it needs does not end in a zero. -/
theorem isExactSize_withPoint
    {x : Rat}
    {places : Nat}
    (found : decimalPlaces? x = some places) :
    IsExactSize (withPoint (Digits.ofNat (unitsOf x places)) places) := by
  obtain rfl | positive := Nat.eq_zero_or_pos places
  · exact .whole (Digits.isWhole_ofNat _)
  · obtain ⟨whole, fraction, text, isWhole, length, digits, value⟩ :=
      exists_withPoint positive (unitsOf x places)
    rw [text]
    refine .decimal isWhole (List.ne_nil_of_length_pos (by omega)) ?_ ?_
    · exact fun c member => digits c (List.mem_append_right whole member)
    · refine getLast?_ne_zero_of_not_dvd whole ?_
      rw [value]
      exact not_ten_dvd_unitsOf found positive

theorem withPoint_eq_zero {units places : Nat} :
    withPoint (Digits.ofNat units) places = ['0'] → units = 0 := by
  intro zero
  obtain rfl | positive := Nat.eq_zero_or_pos places
  · rw [← Digits.toNat_ofNat units]
    exact congrArg Digits.toNat zero
  · obtain ⟨whole, fraction, text, isWhole, _⟩ := exists_withPoint positive units
    have length := congrArg List.length (text.symm.trans zero)
    have nonempty := List.length_pos_of_ne_nil isWhole.nonempty
    rw [List.length_append, List.length_cons, List.length_singleton] at length
    omega

/-- The exact text of every number has the canonical form. -/
theorem isExact_exactText (x : Rat) : IsExact (exactText x).toList := by
  cases found : decimalPlaces? x with
  | some places =>
      rw [toList_exactText_of_some found]
      refine isExact_signed (isExactSize_withPoint found) fun negative zero => negative.ne ?_
      have enough := (den_dvd_pow_iff found).mpr (Nat.le_refl places)
      exact (unitsOf_eq_zero_iff enough).mp (withPoint_eq_zero zero)
  | none =>
      have numerator := Digits.isWhole_ofNat x.num.natAbs
      have signs : (exactText x).toList =
          signed (x.num < 0) (Digits.ofNat x.num.natAbs ++ '/' :: Digits.ofNat x.den) := by
        rw [toList_exactText_of_none found]
        unfold signed
        split <;> rfl
      obtain ⟨p, prime, divides, notTwo, notFive⟩ :=
        exists_prime_of_decimalPlaces?_eq_none found
      rw [signs]
      refine isExact_signed (.fraction numerator (Digits.isWhole_ofNat x.den) ?_ ?_ ?_) ?_
      · rw [Digits.toNat_ofNat, Digits.toNat_ofNat]
        exact x.reduced
      · rw [Digits.toNat_ofNat]
        exact Nat.lt_of_lt_of_le prime.one_lt (Nat.le_of_dvd x.den_pos divides)
      · rw [Digits.toNat_ofNat]
        exact ⟨p, prime, divides, notTwo, notFive⟩
      · intro _ zero
        have length := congrArg List.length zero
        have nonempty := List.length_pos_of_ne_nil numerator.nonempty
        rw [List.length_append, List.length_cons, List.length_singleton] at length
        omega

/--
The exact text of a number is read back as the number, by itself and as JSON.  It
has the form of an exact text, and no two numbers share one.
-/
theorem read_exactText
    (x y : Rat) :
    read (exactText x) = .ok x ∧
      readJson? (jsonText x) = some x ∧
      IsExact (exactText x).toList ∧
      (exactText x = exactText y ↔ x = y) :=
  ⟨read_exactText_eq_ok x, readJson?_jsonText x, isExact_exactText x, exactText_injective.eq_iff⟩

end Number
end ExactFormula
