import ExactFormula.Number.Reading
import ExactFormula.Proofs.Text.Blank
import ExactFormula.Proofs.Text.Digits
import Mathlib.Data.Nat.Digits.Defs

/-!
# The grammar of numbers

A decimal in writing is a sign, digits with or without a point, and a power of ten;
the sign and the power of ten may be missing.  A number in writing is a decimal, or
two of them with a slash between.  What is read is exactly what is written so, and
its value is the one that the digits write; every other text is refused as malformed.
-/

namespace ExactFormula

/-- The number that decimal digits write, the last of them for the units. -/
def Digits.positional (digits : List Char) : Nat :=
  Nat.ofDigits 10 (digits.reverse.map fun digit => digit.toNat - '0'.toNat)

/-- The value that is read off digits is their positional value. -/
theorem Digits.toNat_eq_positional (digits : List Char) :
    Digits.toNat digits = Digits.positional digits := by
  induction digits using List.reverseRecOn with
  | nil => rfl
  | append_singleton digits last inductionHypothesis =>
      rw [Digits.toNat_concat, inductionHypothesis, Digits.positional, Digits.positional,
        List.reverse_append, List.reverse_singleton, List.singleton_append, List.map_cons,
        Nat.ofDigits_cons, Nat.add_comm]

namespace Number

/-! ## Texts and what they write -/

/-- A sign in front of digits, which may be missing. -/
inductive Sign
  /-- No sign. -/
  | absent
  /-- The sign `+`. -/
  | plus
  /-- The sign `-`. -/
  | minus
  deriving DecidableEq

namespace Sign

/-- A sign in writing. -/
def text : Sign → List Char
  | absent => []
  | plus => ['+']
  | minus => ['-']

/-- The number by which a sign multiplies. -/
def factor : Sign → Int
  | minus => -1
  | _ => 1

end Sign

/-- The digits of a decimal, with a sign in front and a point among or beside them. -/
structure WrittenMantissa where
  /-- The sign. -/
  sign : Sign
  /-- The digits before the point. -/
  whole : List Char
  /-- The digits after the point, if there is a point. -/
  fraction? : Option (List Char)
  /-- There is a digit on one side of the point at least. -/
  nonempty : whole ++ fraction?.getD [] ≠ []
  /-- On both sides there is nothing but digits. -/
  digits : ∀ c ∈ whole ++ fraction?.getD [], c.isDigit = true

namespace WrittenMantissa

/-- The digits after the point. -/
def fraction (written : WrittenMantissa) : List Char :=
  written.fraction?.getD []

/-- The characters of a mantissa. -/
def text (written : WrittenMantissa) : List Char :=
  written.sign.text ++ (written.whole ++ written.fraction?.elim [] ('.' :: ·))

/-- The number that is written without regard to the point. -/
def significand (written : WrittenMantissa) : Int :=
  written.sign.factor * Digits.positional (written.whole ++ written.fraction)

end WrittenMantissa

/-- A power of ten, marked by a letter. -/
structure WrittenExponent where
  /-- The letter. -/
  mark : Char
  /-- The sign. -/
  sign : Sign
  /-- The digits. -/
  digits : List Char
  /-- The letter is an `e`, small or capital. -/
  isMark : mark = 'e' ∨ mark = 'E'
  /-- There is a digit. -/
  nonempty : digits ≠ []
  /-- There is nothing but digits. -/
  isDigit : ∀ c ∈ digits, c.isDigit = true
  /-- The power is one of those that are used. -/
  small : Digits.positional digits ≤ 10000

namespace WrittenExponent

/-- The characters of a power of ten. -/
def text (written : WrittenExponent) : List Char :=
  written.mark :: (written.sign.text ++ written.digits)

/-- The power. -/
def value (written : WrittenExponent) : Int :=
  written.sign.factor * Digits.positional written.digits

end WrittenExponent

/-- A decimal: a mantissa and a power of ten, which may be missing. -/
structure WrittenDecimal where
  /-- The mantissa. -/
  mantissa : WrittenMantissa
  /-- The power of ten. -/
  exponent? : Option WrittenExponent

namespace WrittenDecimal

/-- The characters of a decimal. -/
def text (written : WrittenDecimal) : List Char :=
  written.mantissa.text ++ written.exponent?.elim [] WrittenExponent.text

/-- The power of ten; it is zero where none is written. -/
def exponent (written : WrittenDecimal) : Int :=
  written.exponent?.elim 0 WrittenExponent.value

/-- The value: the digits times the power of ten, less one for every digit after the point. -/
def value (written : WrittenDecimal) : Rat :=
  written.mantissa.significand *
    (10 : Rat) ^ (written.exponent - written.mantissa.fraction.length)

end WrittenDecimal

/-- What a text without blanks at its ends is read as. -/
inductive Reads : List Char → Except Failure Rat → Prop
  /-- A decimal has the value that it writes. -/
  | decimal
      (written : WrittenDecimal) :
      '/' ∉ written.text →
      Reads written.text (.ok written.value)
  /-- Any other text without a slash is malformed. -/
  | malformed
      {text : List Char} :
      '/' ∉ text → (∀ written : WrittenDecimal, written.text ≠ text) →
      Reads text (.error (.malformed (String.ofList text)))
  /-- A fraction has the quotient of the two decimals beside its first slash. -/
  | fraction
      {left right : List Char}
      (x y : WrittenDecimal) :
      '/' ∉ left → Text.IsTrimmed left x.text → Text.IsTrimmed right y.text → y.value ≠ 0 →
      Reads (left ++ '/' :: right) (.ok (x.value / y.value))
  /-- A fraction whose second decimal has the value zero is a division by zero. -/
  | zeroDivisor
      {left right : List Char}
      (x y : WrittenDecimal) :
      '/' ∉ left → Text.IsTrimmed left x.text → Text.IsTrimmed right y.text → y.value = 0 →
      Reads (left ++ '/' :: right) (.error .divisionByZero)
  /-- A text with a slash is malformed as a whole if what stands on one side is no decimal. -/
  | malformedFraction
      {left right : List Char} :
      '/' ∉ left →
      (∀ x y : WrittenDecimal, ¬(Text.IsTrimmed left x.text ∧ Text.IsTrimmed right y.text)) →
      Reads (left ++ '/' :: right) (.error (.malformed (String.ofList (left ++ '/' :: right))))

/-! ## Signs and integers -/

/-- The sign of a text is taken off, if none follows it. -/
theorem takeSign_append
    (sign : Sign)
    {rest : List Char}
    (unsigned : ∀ c ∈ rest.head?, c ≠ '+' ∧ c ≠ '-') :
    takeSign (sign.text ++ rest) = (decide (sign = .minus), rest) := by
  cases sign with
  | absent =>
      cases rest with
      | nil => rfl
      | cons c rest =>
          obtain ⟨noPlus, noMinus⟩ := unsigned c rfl
          simp [Sign.text, takeSign, noPlus, noMinus]
  | plus => rfl
  | minus => rfl

/-- A text is the sign that is taken off its front and what is left of it. -/
theorem exists_sign (text : List Char) :
    ∃ sign : Sign, text = sign.text ++ (takeSign text).2 ∧
      (takeSign text).1 = decide (sign = .minus) := by
  unfold takeSign
  split
  · exact ⟨.minus, rfl, rfl⟩
  · exact ⟨.plus, rfl, rfl⟩
  · exact ⟨.absent, rfl, rfl⟩

theorem Sign.factor_mul (sign : Sign) (size : Nat) :
    (if decide (sign = .minus) = true then -(size : Int) else size) = sign.factor * size := by
  cases sign <;> simp [Sign.factor]

theorem unsigned_of_isDigit
    {digits : List Char}
    (isDigit : ∀ c ∈ digits, c.isDigit = true) :
    ∀ c ∈ digits.head?, c ≠ '+' ∧ c ≠ '-' := by
  intro c first
  have digit := isDigit c (List.mem_of_mem_head? first)
  constructor <;> rintro rfl <;> simp at digit

/-- An integer is an optional sign and at least one digit, and nothing else is read as one. -/
theorem readInteger?_eq_some_iff {text : List Char} {value : Int} :
    readInteger? text = some value ↔
      ∃ (sign : Sign) (digits : List Char), text = sign.text ++ digits ∧ digits ≠ [] ∧
        (∀ c ∈ digits, c.isDigit = true) ∧ value = sign.factor * Digits.positional digits := by
  constructor
  · intro read
    obtain ⟨sign, split, negative⟩ := exists_sign text
    simp only [readInteger?, Option.ite_none_right_eq_some, Option.some.injEq, negative,
      sign.factor_mul, Digits.toNat_eq_positional, List.all_eq_true] at read
    obtain ⟨⟨nonempty, digits⟩, rfl⟩ := read
    exact ⟨sign, _, split, nonempty, digits, rfl⟩
  · rintro ⟨sign, digits, rfl, nonempty, isDigit, rfl⟩
    have all : digits.all Char.isDigit = true := List.all_eq_true.mpr isDigit
    simp only [readInteger?, takeSign_append sign (unsigned_of_isDigit isDigit), sign.factor_mul,
      Digits.toNat_eq_positional]
    rw [if_pos ⟨nonempty, all⟩]

theorem Sign.natAbs_factor_mul (sign : Sign) (size : Nat) :
    (sign.factor * size).natAbs = size := by
  cases sign <;> simp [Sign.factor]

/-- What follows the mark is read just when it is a written exponent. -/
theorem readExponent?_eq_some_iff
    {mark : Char}
    {text : List Char}
    {value : Int}
    (isMark : mark = 'e' ∨ mark = 'E') :
    readExponent? text = some value ↔
      ∃ written : WrittenExponent, written.text = mark :: text ∧ written.value = value := by
  simp only [readExponent?, Option.filter_eq_some_iff, readInteger?_eq_some_iff,
    largestWrittenExponent]
  constructor
  · rintro ⟨⟨sign, digits, rfl, nonempty, isDigit, rfl⟩, small⟩
    rw [sign.natAbs_factor_mul] at small
    exact ⟨⟨mark, sign, digits, isMark, nonempty, isDigit, of_decide_eq_true small⟩, rfl, rfl⟩
  · rintro ⟨written, same, rfl⟩
    obtain ⟨_, rfl⟩ := List.cons.inj same
    refine ⟨⟨_, _, rfl, written.nonempty, written.isDigit, rfl⟩, ?_⟩
    rw [WrittenExponent.value, Sign.natAbs_factor_mul]
    exact decide_eq_true written.small

/-! ## Decimals -/

/-- The digits of a mantissa begin with no sign, and only a point divides them. -/
theorem WrittenMantissa.cutAt_point (written : WrittenMantissa) :
    (Text.cutAt (· = '.') (written.whole ++ written.fraction?.elim [] ('.' :: ·))).getD
        (written.whole ++ written.fraction?.elim [] ('.' :: ·), []) =
      (written.whole, written.fraction) := by
  have pointless : ∀ c ∈ written.whole, decide (c = '.') = false := by
    intro c member
    have digit := written.digits c (List.mem_append_left _ member)
    rw [decide_eq_false_iff_not]
    rintro rfl
    simp at digit
  cases point : written.fraction? with
  | none =>
      rw [Option.elim_none, List.append_nil, Text.cutAt_eq_none_iff.mpr pointless,
        Option.getD_none, fraction, point, Option.getD_none]
  | some fraction =>
      have cut : Text.cutAt (· = '.') (written.whole ++ '.' :: fraction) =
          some (written.whole, fraction) :=
        Text.cutAt_eq_some_iff.mpr ⟨pointless, '.', rfl, rfl⟩
      rw [Option.elim_some, cut, Option.getD_some, WrittenMantissa.fraction, point,
        Option.getD_some]

/-- The characters of a mantissa without its sign are digits and a point. -/
theorem WrittenMantissa.cases_of_mem_unsigned
    (written : WrittenMantissa) :
    ∀ c ∈ written.whole ++ written.fraction?.elim [] ('.' :: ·), c.isDigit = true ∨ c = '.' := by
  have digits := written.digits
  intro c member
  cases point : written.fraction? with
  | none =>
      simp only [point, Option.elim_none, Option.getD_none] at digits member
      exact .inl (digits c member)
  | some fraction =>
      simp only [point, Option.elim_some, Option.getD_some, List.mem_append, List.mem_cons]
        at digits member
      obtain whole | rfl | fraction := member
      · exact .inl (digits c (.inl whole))
      · exact .inr rfl
      · exact .inl (digits c (.inr fraction))

/-- A significand and its places are read just from a written mantissa. -/
theorem readMantissa?_eq_some_iff {text : List Char} {significand : Int} {places : Nat} :
    readMantissa? text = some (significand, places) ↔
      ∃ written : WrittenMantissa, written.text = text ∧ written.significand = significand ∧
        written.fraction.length = places := by
  constructor
  · intro read
    obtain ⟨sign, split, negative⟩ := exists_sign text
    cases found : Text.cutAt (· = '.') (takeSign text).2 with
    | none =>
        simp only [readMantissa?, found, Option.getD_none, Option.ite_none_right_eq_some,
          Option.some.injEq, Prod.mk.injEq, negative, sign.factor_mul,
          Digits.toNat_eq_positional, List.all_eq_true] at read
        obtain ⟨⟨nonempty, digits⟩, rfl, rfl⟩ := read
        refine ⟨⟨sign, (takeSign text).2, none, nonempty, digits⟩, ?_, rfl, rfl⟩
        rw [WrittenMantissa.text, Option.elim_none, List.append_nil]
        exact split.symm
    | some cut =>
        obtain ⟨whole, fraction⟩ := cut
        simp only [readMantissa?, found, Option.getD_some, Option.ite_none_right_eq_some,
          Option.some.injEq, Prod.mk.injEq, negative, sign.factor_mul,
          Digits.toNat_eq_positional, List.all_eq_true] at read
        obtain ⟨⟨nonempty, digits⟩, rfl, rfl⟩ := read
        refine ⟨⟨sign, whole, some fraction, nonempty, digits⟩, ?_, rfl, rfl⟩
        obtain ⟨_, point, isPoint, unsigned⟩ := Text.cutAt_eq_some_iff.mp found
        rw [of_decide_eq_true isPoint] at unsigned
        rw [WrittenMantissa.text, Option.elim_some, ← unsigned]
        exact split.symm
  · rintro ⟨written, rfl, rfl, rfl⟩
    have unsigned : ∀ c ∈ (written.whole ++ written.fraction?.elim [] ('.' :: ·)).head?,
        c ≠ '+' ∧ c ≠ '-' := by
      intro c first
      obtain digit | rfl := written.cases_of_mem_unsigned c (List.mem_of_mem_head? first)
      · constructor <;> rintro rfl <;> simp at digit
      · decide
    have all : (written.whole ++ written.fraction).all Char.isDigit = true :=
      List.all_eq_true.mpr written.digits
    have nonempty : written.whole ++ written.fraction ≠ [] := written.nonempty
    simp only [readMantissa?, WrittenMantissa.text, takeSign_append written.sign unsigned,
      written.cutAt_point, Sign.factor_mul, Digits.toNat_eq_positional]
    rw [if_pos ⟨nonempty, all⟩]
    rfl

/-- No mark of a power of ten stands in a mantissa. -/
theorem WrittenMantissa.isExponentMark_eq_false (written : WrittenMantissa) :
    ∀ c ∈ written.text, isExponentMark c = false := by
  intro c member
  obtain sign | unsigned := List.mem_append.mp member
  · cases shown : written.sign <;> simp [shown, Sign.text] at sign <;> subst sign <;> decide
  · obtain digit | rfl := written.cases_of_mem_unsigned c unsigned
    · rw [isExponentMark, Bool.or_eq_false_iff, decide_eq_false_iff_not, decide_eq_false_iff_not]
      constructor <;> rintro rfl <;> simp at digit
    · decide

theorem WrittenDecimal.value_without_exponent (mantissa : WrittenMantissa) :
    WrittenDecimal.value ⟨mantissa, none⟩ =
      mantissa.significand * (10 : Rat) ^ (-(mantissa.fraction.length : Int)) := by
  rw [value, exponent, Option.elim_none, zero_sub]

/-- The decimals that are read are those of the grammar. -/
theorem readDecimal?_eq_some_iff {text : List Char} {value : Rat} :
    readDecimal? text = some value ↔
      ∃ written : WrittenDecimal, written.text = text ∧ written.value = value := by
  constructor
  · intro read
    cases found : Text.cutAt isExponentMark text with
    | none =>
        simp only [readDecimal?, found, Option.bind_eq_bind, Option.bind_eq_some_iff] at read
        obtain ⟨⟨significand, places⟩, mantissa, same⟩ := read
        obtain ⟨written, rfl, rfl, rfl⟩ := readMantissa?_eq_some_iff.mp mantissa
        refine ⟨⟨written, none⟩, List.append_nil _, ?_⟩
        rw [WrittenDecimal.value_without_exponent]
        exact Option.some.inj same
    | some cut =>
        obtain ⟨left, right⟩ := cut
        obtain ⟨_, mark, isMark, rfl⟩ := Text.cutAt_eq_some_iff.mp found
        have letter : mark = 'e' ∨ mark = 'E' := by simpa [isExponentMark] using isMark
        simp only [readDecimal?, found, Option.bind_eq_bind, Option.bind_eq_some_iff] at read
        obtain ⟨power, exponent, ⟨significand, places⟩, mantissa, same⟩ := read
        obtain ⟨writtenExponent, exponentText, rfl⟩ :=
          (readExponent?_eq_some_iff letter).mp exponent
        obtain ⟨written, rfl, rfl, rfl⟩ := readMantissa?_eq_some_iff.mp mantissa
        refine ⟨⟨written, some writtenExponent⟩, ?_, Option.some.inj same⟩
        rw [WrittenDecimal.text, Option.elim_some, exponentText]
  · rintro ⟨⟨mantissa, exponent?⟩, rfl, rfl⟩
    have read := readMantissa?_eq_some_iff.mpr ⟨mantissa, rfl, rfl, rfl⟩
    cases exponent? with
    | none =>
        have uncut := Text.cutAt_eq_none_iff.mpr mantissa.isExponentMark_eq_false
        rw [WrittenDecimal.value_without_exponent, WrittenDecimal.text, Option.elim_none,
          List.append_nil, readDecimal?, uncut]
        simp only [read, Option.bind_eq_bind, Option.bind_some, Option.pure_def]
    | some exponent =>
        have isMark : isExponentMark exponent.mark = true := by
          simpa [isExponentMark] using exponent.isMark
        have cut : Text.cutAt isExponentMark (mantissa.text ++ exponent.text) =
            some (mantissa.text, exponent.sign.text ++ exponent.digits) :=
          Text.cutAt_eq_some_iff.mpr ⟨mantissa.isExponentMark_eq_false, _, isMark, rfl⟩
        have power := (readExponent?_eq_some_iff exponent.isMark).mpr ⟨exponent, rfl, rfl⟩
        rw [WrittenDecimal.text, Option.elim_some, readDecimal?, cut]
        simp only [power, read, Option.bind_eq_bind, Option.bind_some, Option.pure_def]
        rfl

/-! ## Numbers -/

/-- No decimal is read exactly where none is written. -/
theorem readDecimal?_eq_none_iff {text : List Char} :
    readDecimal? text = none ↔ ∀ written : WrittenDecimal, written.text ≠ text := by
  rw [Option.eq_none_iff_forall_ne_some]
  constructor
  · intro unread written same
    exact unread written.value (readDecimal?_eq_some_iff.mpr ⟨written, same, rfl⟩)
  · intro unwritten value read
    obtain ⟨written, same, _⟩ := readDecimal?_eq_some_iff.mp read
    exact unwritten written same

/-- What is written beside a slash may have blanks around it. -/
theorem readDecimal?_trim_eq_some_iff {text : List Char} {value : Rat} :
    readDecimal? (Text.trim text) = some value ↔
      ∃ written : WrittenDecimal, Text.IsTrimmed text written.text ∧ written.value = value := by
  rw [readDecimal?_eq_some_iff]
  simp only [Text.isTrimmed_iff, @eq_comm _ (Text.trim text)]

theorem forall_ne_slash_iff {text : List Char} :
    (∀ c ∈ text, decide (c = '/') = false) ↔ '/' ∉ text := by
  simp only [decide_eq_false_iff_not, List.forall_mem_ne']

theorem cutAt_slash_append {left : List Char} (unslashed : '/' ∉ left) (right : List Char) :
    Text.cutAt (· = '/') (left ++ '/' :: right) = some (left, right) :=
  Text.cutAt_eq_some_iff.mpr ⟨forall_ne_slash_iff.mpr unslashed, '/', rfl, rfl⟩

/-- Every text falls under one of the cases. -/
theorem reads_readTrimmed (text : List Char) : Reads text (readTrimmed text) := by
  cases found : Text.cutAt (· = '/') text with
  | none =>
      have unslashed := forall_ne_slash_iff.mp (Text.cutAt_eq_none_iff.mp found)
      cases decimal : readDecimal? text with
      | none =>
          simp only [readTrimmed, found, decimal]
          exact .malformed unslashed (readDecimal?_eq_none_iff.mp decimal)
      | some value =>
          simp only [readTrimmed, found, decimal]
          obtain ⟨written, rfl, rfl⟩ := readDecimal?_eq_some_iff.mp decimal
          exact .decimal written unslashed
  | some cut =>
      obtain ⟨left, right⟩ := cut
      obtain ⟨unmarked, slash, isSlash, rfl⟩ := Text.cutAt_eq_some_iff.mp found
      have unslashed := forall_ne_slash_iff.mp unmarked
      obtain rfl := of_decide_eq_true isSlash
      cases numerator : readDecimal? (Text.trim left) with
      | none =>
          simp only [readTrimmed, found, numerator]
          refine .malformedFraction unslashed fun x y ⟨written, _⟩ => ?_
          rw [readDecimal?_trim_eq_some_iff.mpr ⟨x, written, rfl⟩] at numerator
          cases numerator
      | some first =>
          cases denominator : readDecimal? (Text.trim right) with
          | none =>
              simp only [readTrimmed, found, numerator, denominator]
              refine .malformedFraction unslashed fun x y ⟨_, written⟩ => ?_
              rw [readDecimal?_trim_eq_some_iff.mpr ⟨y, written, rfl⟩] at denominator
              cases denominator
          | some second =>
              simp only [readTrimmed, found, numerator, denominator]
              obtain ⟨x, writtenFirst, rfl⟩ := readDecimal?_trim_eq_some_iff.mp numerator
              obtain ⟨y, writtenSecond, rfl⟩ := readDecimal?_trim_eq_some_iff.mp denominator
              rw [divide]
              split
              · exact .zeroDivisor x y unslashed writtenFirst writtenSecond ‹_›
              · exact .fraction x y unslashed writtenFirst writtenSecond ‹_›

/-- No case says anything else than what is read. -/
theorem Reads.readTrimmed_eq {text : List Char} {result : Except Failure Rat}
    (reads : Reads text result) :
    readTrimmed text = result := by
  cases reads with
  | decimal written unslashed =>
      have uncut := Text.cutAt_eq_none_iff.mpr (forall_ne_slash_iff.mpr unslashed)
      have decimal := readDecimal?_eq_some_iff.mpr ⟨written, rfl, rfl⟩
      simp only [readTrimmed, uncut, decimal]
  | malformed unslashed unwritten =>
      have uncut := Text.cutAt_eq_none_iff.mpr (forall_ne_slash_iff.mpr unslashed)
      simp only [readTrimmed, uncut, readDecimal?_eq_none_iff.mpr unwritten]
  | fraction x y unslashed writtenFirst writtenSecond nonzero =>
      have numerator := readDecimal?_trim_eq_some_iff.mpr ⟨x, writtenFirst, rfl⟩
      have denominator := readDecimal?_trim_eq_some_iff.mpr ⟨y, writtenSecond, rfl⟩
      simp only [readTrimmed, cutAt_slash_append unslashed, numerator, denominator]
      rw [divide, if_neg nonzero]
  | zeroDivisor x y unslashed writtenFirst writtenSecond zero =>
      have numerator := readDecimal?_trim_eq_some_iff.mpr ⟨x, writtenFirst, rfl⟩
      have denominator := readDecimal?_trim_eq_some_iff.mpr ⟨y, writtenSecond, rfl⟩
      simp only [readTrimmed, cutAt_slash_append unslashed, numerator, denominator]
      rw [divide, if_pos zero]
  | @malformedFraction left right unslashed unwritten =>
      simp only [readTrimmed, cutAt_slash_append unslashed]
      -- Were both sides decimals, the text would be one that the case leaves out.
      split
      · rename_i first second numerator denominator
        obtain ⟨x, writtenFirst, _⟩ := readDecimal?_trim_eq_some_iff.mp numerator
        obtain ⟨y, writtenSecond, _⟩ := readDecimal?_trim_eq_some_iff.mp denominator
        exact absurd ⟨writtenFirst, writtenSecond⟩ (unwritten x y)
      · rfl

/-- What is read is decided by the grammar, on the text without the blanks at its ends. -/
theorem read_eq_iff_reads (text : String) (result : Except Failure Rat) :
    read text = result ↔
      ∃ trimmed, Text.IsTrimmed text.toList trimmed ∧ Reads trimmed result := by
  constructor
  · intro same
    exact ⟨_, Text.isTrimmed_trim text.toList, same ▸ reads_readTrimmed _⟩
  · rintro ⟨trimmed, isTrimmed, reads⟩
    rw [read, Text.isTrimmed_iff.mp isTrimmed]
    exact reads.readTrimmed_eq

end Number
end ExactFormula
