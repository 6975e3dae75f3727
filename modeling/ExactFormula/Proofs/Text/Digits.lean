import ExactFormula.Text.Digits
import Mathlib.Data.List.DropRight
import Mathlib.Data.List.Induction
import Mathlib.Data.Nat.Digits.Lemmas
import Mathlib.Tactic.IntervalCases
import Mathlib.Tactic.Ring

/-!
# Digits and the numbers that they write

The digits of a number write that number, and no zero stands in front of them
unless it is the only digit.  So there are as many as the size of the number asks for.
-/

namespace ExactFormula
namespace Digits

/-! ## Single digits -/

theorem isDigit_digitChar {d : Nat} (small : d < 10) : (Nat.digitChar d).isDigit = true := by
  interval_cases d <;> decide

/-- The character of a number below ten stands for that number. -/
theorem toNat_digitChar {d : Nat} (small : d < 10) :
    (Nat.digitChar d).toNat - '0'.toNat = d := by
  interval_cases d <;> decide

/-- Only zero is written as the digit zero. -/
theorem digitChar_ne_zero {d : Nat} (small : d < 10) (positive : 0 < d) :
    Nat.digitChar d ≠ '0' := by
  interval_cases d <;> decide

/-- The code points of the digits are those from 48 to 57. -/
theorem toNat_mem_of_isDigit {c : Char} (digit : c.isDigit = true) :
    48 ≤ c.toNat ∧ c.toNat ≤ 57 := by
  simp only [Char.isDigit, Bool.and_eq_true, decide_eq_true_iff, ge_iff_le,
    UInt32.le_iff_toNat_le] at digit
  exact digit

/-- A digit stands for a number below ten. -/
theorem toNat_sub_lt_ten {c : Char} (digit : c.isDigit = true) : c.toNat - '0'.toNat < 10 := by
  have bounds := toNat_mem_of_isDigit digit
  rw [show '0'.toNat = 48 from rfl]
  omega

/-- A digit other than zero stands for a positive number. -/
theorem toNat_sub_pos {c : Char} (digit : c.isDigit = true) (nonzero : c ≠ '0') :
    0 < c.toNat - '0'.toNat := by
  have bounds := toNat_mem_of_isDigit digit
  have differs : c.toNat ≠ 48 := fun same => nonzero (Char.toNat_inj.mp same)
  rw [show '0'.toNat = 48 from rfl]
  omega

/-! ## The number of a list of digits -/

@[simp] theorem toNat_nil : toNat [] = 0 := rfl

theorem toNat_singleton (digit : Char) : toNat [digit] = digit.toNat - '0'.toNat := by
  simp [toNat]

/-- A further digit at the end multiplies the value by ten and adds its own. -/
theorem toNat_concat (digits : List Char) (last : Char) :
    toNat (digits ++ [last]) = 10 * toNat digits + (last.toNat - '0'.toNat) := by
  rw [toNat, List.foldl_append]
  rfl

/-- Digits in front count by the power of ten of how many digits follow. -/
theorem toNat_append (first last : List Char) :
    toNat (first ++ last) = toNat first * 10 ^ last.length + toNat last := by
  induction last using List.reverseRecOn with
  | nil => simp
  | append_singleton last digit inductionHypothesis =>
      rw [← List.append_assoc, toNat_concat, toNat_concat, inductionHypothesis,
        List.length_append, List.length_singleton, pow_succ]
      ring

theorem toNat_replicate_zero (count : Nat) : toNat (List.replicate count '0') = 0 := by
  induction count with
  | zero => rfl
  | succ count inductionHypothesis =>
      rw [List.replicate_succ', toNat_concat, inductionHypothesis]
      rfl

/-! ## Blocks -/

/-- A block has as many digits as its level says. -/
theorem length_block (level n : Nat) : (block level n).length = 2 ^ level := by
  induction level generalizing n with
  | zero => rfl
  | succ level inductionHypothesis =>
      rw [block, List.length_append, inductionHypothesis, inductionHypothesis, pow_succ]
      omega

theorem isDigit_of_mem_block {level n : Nat} : ∀ c ∈ block level n, c.isDigit = true := by
  induction level generalizing n with
  | zero =>
      intro c member
      rw [block, List.mem_singleton] at member
      exact member ▸ isDigit_digitChar (Nat.mod_lt n (by decide))
  | succ level inductionHypothesis =>
      intro c member
      rw [block] at member
      exact (List.mem_append.mp member).elim (inductionHypothesis c) (inductionHypothesis c)

/-- A block has the value of the number modulo the power of ten of its length. -/
theorem toNat_block (level n : Nat) : toNat (block level n) = n % 10 ^ 2 ^ level := by
  induction level generalizing n with
  | zero =>
      rw [block, toNat_singleton, toNat_digitChar (Nat.mod_lt n (by decide))]
      rfl
  | succ level inductionHypothesis =>
      rw [block, toNat_append, length_block, inductionHypothesis, inductionHypothesis, pow_succ,
        pow_mul, pow_two, Nat.mod_mul]
      simp only [Nat.pow_eq, Nat.mod_mod]
      ring

/-! ## The digits of a number -/

/-- Digits with no zero in front, unless it is the only digit. -/
structure IsWhole (text : List Char) : Prop where
  /-- There is a digit. -/
  nonempty : text ≠ []
  /-- All characters are digits. -/
  digits : ∀ c ∈ text, c.isDigit = true
  /-- A zero in front stands alone. -/
  front : text.head? = some '0' → text = ['0']

theorem isDigit_of_mem_below {level n : Nat} : ∀ c ∈ below level n, c.isDigit = true := by
  fun_induction below level n with
  | case1 n =>
      intro c member
      rw [List.mem_singleton] at member
      exact member ▸ isDigit_digitChar (Nat.mod_lt n (by decide))
  | case2 level n unit small inductionHypothesis => exact inductionHypothesis
  | case3 level n unit large inductionHypothesis =>
      intro c member
      exact (List.mem_append.mp member).elim (inductionHypothesis c) (isDigit_of_mem_block c)

theorem below_ne_nil (level n : Nat) : below level n ≠ [] := by
  fun_induction below level n with
  | case1 n => simp
  | case2 level n unit small inductionHypothesis => exact inductionHypothesis
  | case3 level n unit large inductionHypothesis => simp [inductionHypothesis]

/-- A number that is small enough for the level is written in full. -/
theorem toNat_below {level n : Nat} (bounded : n < 10 ^ 2 ^ level) :
    toNat (below level n) = n := by
  fun_induction below level n with
  | case1 n =>
      rw [toNat_singleton, toNat_digitChar (Nat.mod_lt n (by decide))]
      exact Nat.mod_eq_of_lt bounded
  | case2 level n unit small inductionHypothesis => exact inductionHypothesis small
  | case3 level n unit large inductionHypothesis =>
      rw [pow_succ, pow_mul, pow_two] at bounded
      have high : n / unit < 10 ^ 2 ^ level := Nat.div_lt_of_lt_mul bounded
      have positive : 0 < unit := Nat.pow_pos (by decide)
      rw [toNat_append, inductionHypothesis high, length_block, toNat_block]
      change n / unit * unit + n % unit % unit = n
      rw [Nat.mod_mod, Nat.mul_comm]
      exact Nat.div_add_mod n unit

/-- A positive number that fits the level is written without a zero in front. -/
theorem head?_below_ne_zero {level n : Nat} (bounded : n < 10 ^ 2 ^ level) (positive : 0 < n) :
    (below level n).head? ≠ some '0' := by
  fun_induction below level n with
  | case1 n =>
      have small : n < 10 := bounded
      rw [Nat.mod_eq_of_lt small]
      simpa using digitChar_ne_zero small positive
  | case2 level n unit small inductionHypothesis => exact inductionHypothesis small positive
  | case3 level n unit large inductionHypothesis =>
      rw [pow_succ, pow_mul, pow_two] at bounded
      have high : n / unit < 10 ^ 2 ^ level := Nat.div_lt_of_lt_mul bounded
      have unitPositive : 0 < unit := Nat.pow_pos (by decide)
      have quotientPositive : 0 < n / unit := Nat.div_pos (by omega) unitPositive
      have front := inductionHypothesis high quotientPositive
      obtain ⟨first, rest, digits⟩ := List.exists_cons_of_ne_nil (below_ne_nil level (n / unit))
      rw [digits] at front ⊢
      exact front

/-- The level that is taken for a number is high enough. -/
theorem lt_pow_level (n : Nat) : n < 10 ^ 2 ^ level n :=
  calc
    n < 2 ^ (Nat.log2 n + 1) := Nat.lt_log2_self
    _ ≤ 2 ^ 2 ^ level n := Nat.pow_le_pow_right (by decide) (Nat.le_of_lt Nat.lt_log2_self)
    _ ≤ 10 ^ 2 ^ level n := Nat.pow_le_pow_left (by decide) _

/-- Reading what was written for a number gives the number. -/
theorem toNat_ofNat (n : Nat) : toNat (ofNat n) = n :=
  toNat_below (lt_pow_level n)

/-- A number is written as a whole number, with no zero in front that could be left out. -/
theorem isWhole_ofNat (n : Nat) : IsWhole (ofNat n) where
  nonempty := below_ne_nil _ n
  digits := isDigit_of_mem_below
  front zero := by
    cases n with
    | zero => rfl
    | succ n => exact absurd zero (head?_below_ne_zero (lt_pow_level _) n.succ_pos)

/-! ## Zeros in front -/

/-- Padding gives the digits that the width asks for, or those there were if these are more. -/
theorem length_padded (width : Nat) (digits : List Char) :
    (padded width digits).length = max width digits.length := by
  rw [padded, List.length_append, List.length_replicate]
  omega

/-- Padding keeps the value. -/
theorem toNat_padded (width : Nat) (digits : List Char) :
    toNat (padded width digits) = toNat digits := by
  rw [padded, toNat_append, toNat_replicate_zero, Nat.zero_mul, Nat.zero_add]

theorem isDigit_of_mem_padded
    {width : Nat}
    {digits : List Char}
    (inside : ∀ c ∈ digits, c.isDigit = true) :
    ∀ c ∈ padded width digits, c.isDigit = true := by
  intro c member
  obtain zero | digit := List.mem_append.mp member
  · rw [List.eq_of_mem_replicate zero]
    rfl
  · exact inside c digit

/-- Zeros in front of a whole number fill up one place at most that is not a decimal place. -/
theorem IsWhole.take_padded
    {digits : List Char}
    (whole : IsWhole digits)
    {places : Nat}
    (positive : 0 < places) :
    IsWhole ((padded (places + 1) digits).take
      ((padded (places + 1) digits).length - places)) := by
  have length := length_padded (places + 1) digits
  refine ⟨?_, ?_, ?_⟩
  · rw [ne_eq, List.take_eq_nil_iff, not_or]
    exact ⟨by omega, List.ne_nil_of_length_pos (by omega)⟩
  · intro c member
    exact isDigit_of_mem_padded whole.digits c (List.mem_of_mem_take member)
  · intro zero
    by_cases short : digits.length ≤ places + 1
    · have single : (padded (places + 1) digits).length - places = 1 := by omega
      rw [single] at zero ⊢
      cases filled : padded (places + 1) digits with
      | nil => simp [filled] at zero
      | cons first rest => simpa [filled] using zero
    · have unfilled : padded (places + 1) digits = digits := by
        rw [padded, Nat.sub_eq_zero_of_le (by omega)]
        rfl
      rw [unfilled, List.head?_take, if_neg (by omega)] at zero
      have alone := congrArg List.length (whole.front zero)
      rw [List.length_singleton] at alone
      omega

/-! ## How many digits -/

/-- Digits have a value below the power of ten of their length. -/
theorem toNat_lt_pow_length {digits : List Char} (digital : ∀ c ∈ digits, c.isDigit = true) :
    toNat digits < 10 ^ digits.length := by
  induction digits using List.reverseRecOn with
  | nil => simp
  | append_singleton digits last inductionHypothesis =>
      rw [List.forall_mem_append, List.forall_mem_singleton] at digital
      have before := inductionHypothesis digital.1
      have digit := toNat_sub_lt_ten digital.2
      rw [toNat_concat, List.length_append, List.length_singleton, pow_succ]
      omega

/--
Without a zero in front, the value reaches the power of ten of the digits that follow the first.
-/
theorem pow_le_toNat_cons
    {first : Char}
    (digit : first.isDigit = true)
    (nonzero : first ≠ '0')
    (rest : List Char) :
    10 ^ rest.length ≤ toNat (first :: rest) := by
  rw [← List.singleton_append, toNat_append, toNat_singleton]
  exact (Nat.le_mul_of_pos_left _ (toNat_sub_pos digit nonzero)).trans (Nat.le_add_right _ _)

/-- A number is below the power of ten of its digit count. -/
theorem lt_pow_count (n : Nat) : n < 10 ^ count n := by
  have bounded := toNat_lt_pow_length (isWhole_ofNat n).digits
  rwa [toNat_ofNat] at bounded

theorem count_pos (n : Nat) : 0 < count n :=
  List.length_pos_iff.mpr (isWhole_ofNat n).nonempty

/-- A number has no more digits than it needs. -/
theorem pow_count_le {n : Nat} (positive : 0 < n) : 10 ^ (count n - 1) ≤ n := by
  obtain ⟨first, rest, digits⟩ := List.exists_cons_of_ne_nil (isWhole_ofNat n).nonempty
  have front : (ofNat n).head? ≠ some '0' := head?_below_ne_zero (lt_pow_level n) positive
  have digital := (isWhole_ofNat n).digits
  rw [digits] at front digital
  have large := pow_le_toNat_cons (digital first (List.mem_cons_self ..)) (by simpa using front) rest
  rw [← digits, toNat_ofNat] at large
  rwa [count, digits, List.length_cons, Nat.add_sub_cancel]

/-- A larger number has at least as many digits. -/
theorem count_mono {m n : Nat} (le : m ≤ n) : count m ≤ count n := by
  obtain rfl | positive := Nat.eq_zero_or_pos m
  · exact count_pos n
  · have shorter : count m - 1 < count n :=
      (Nat.pow_lt_pow_iff_right (by decide)).mp
        (((pow_count_le positive).trans le).trans_lt (lt_pow_count n))
    omega

/-- A number has as many digits as stand in a list that writes it with no zero in front. -/
theorem count_toNat
    {digits : List Char}
    (digital : ∀ c ∈ digits, c.isDigit = true)
    (nonempty : digits ≠ [])
    (front : digits.head? ≠ some '0') :
    count (toNat digits) = digits.length := by
  obtain ⟨first, rest, rfl⟩ := List.exists_cons_of_ne_nil nonempty
  have low := pow_le_toNat_cons (digital first (List.mem_cons_self ..)) (by simpa using front) rest
  have high := toNat_lt_pow_length digital
  have positive : 0 < toNat (first :: rest) := (Nat.pow_pos (by decide)).trans_le low
  have enough : rest.length < count (toNat (first :: rest)) :=
    (Nat.pow_lt_pow_iff_right (by decide)).mp (low.trans_lt (lt_pow_count _))
  have needed : count (toNat (first :: rest)) - 1 < (first :: rest).length :=
    (Nat.pow_lt_pow_iff_right (by decide)).mp ((pow_count_le positive).trans_lt high)
  rw [List.length_cons] at needed ⊢
  omega

/-- The digit count of a positive number is the length of its digit list in base ten. -/
theorem count_eq_length_digits {n : Nat} (positive : 0 < n) :
    count n = (Nat.digits 10 n).length := by
  have enough := (Nat.digits_length_le_iff (by decide) n).mpr (lt_pow_count n)
  have needed := (Nat.lt_digits_length_iff (by decide) n).mpr (pow_count_le positive)
  omega

/-! ## Zeros at both ends -/

theorem toNat_zero_cons (digits : List Char) : toNat ('0' :: digits) = toNat digits := by
  rw [← List.singleton_append, toNat_append]
  exact (congrArg (· + toNat digits) (Nat.zero_mul _)).trans (Nat.zero_add _)

/-- Dropping the zeros in front keeps the value. -/
theorem toNat_dropWhile_zero (digits : List Char) :
    toNat (digits.dropWhile (· = '0')) = toNat digits := by
  induction digits with
  | nil => rfl
  | cons first rest inductionHypothesis =>
      by_cases zero : first = '0'
      · rw [List.dropWhile_cons_of_pos (by simpa using zero), inductionHypothesis, zero,
          toNat_zero_cons]
      · rw [List.dropWhile_cons_of_neg (by simpa using zero)]

/-- Zeros at the end are powers of ten. -/
theorem exists_toNat_eq_rdropWhile_mul (digits : List Char) :
    ∃ zeros, toNat digits = toNat (digits.rdropWhile (· = '0')) * 10 ^ zeros := by
  induction digits using List.reverseRecOn with
  | nil => exact ⟨0, rfl⟩
  | append_singleton digits last inductionHypothesis =>
      by_cases zero : last = '0'
      · obtain ⟨zeros, value⟩ := inductionHypothesis
        refine ⟨zeros + 1, ?_⟩
        rw [List.rdropWhile_concat_pos _ _ _ (by simpa using zero), toNat_concat, value, zero,
          Nat.sub_self, pow_succ]
        ring
      · refine ⟨0, ?_⟩
        rw [List.rdropWhile_concat_neg _ _ _ (by simpa using zero), pow_zero, mul_one]

/-- The significant digits leave out zeros in front and powers of ten. -/
theorem exists_toNat_eq_significant_mul (digits : List Char) :
    ∃ zeros, toNat digits = toNat (significant digits) * 10 ^ zeros := by
  obtain ⟨zeros, value⟩ := exists_toNat_eq_rdropWhile_mul (digits.dropWhile (· = '0'))
  exact ⟨zeros, (toNat_dropWhile_zero digits).symm.trans value⟩

/-- The significant digits begin where the zeros in front end. -/
theorem isPrefix_significant (digits : List Char) :
    significant digits <+: digits.dropWhile (· = '0') :=
  List.rdropWhile_prefix _ _

theorem mem_of_mem_significant {digits : List Char} {c : Char} (member : c ∈ significant digits) :
    c ∈ digits :=
  (List.dropWhile_sublist _).mem ((isPrefix_significant digits).mem member)

/-- The significant digits do not begin with a zero. -/
theorem head?_significant_ne_zero (digits : List Char) :
    (significant digits).head? ≠ some '0' := by
  intro zero
  obtain ⟨after, whole⟩ := isPrefix_significant digits
  have front := List.head?_dropWhile_not (· = '0') digits
  rw [← whole, List.head?_append, zero] at front
  simp at front

/-- The significant digits do not end with a zero. -/
theorem getLast?_significant_ne_zero (digits : List Char) :
    (significant digits).getLast? ≠ some '0' := by
  intro zero
  have back := List.head?_dropWhile_not (· = '0') (digits.dropWhile (· = '0')).reverse
  rw [significant, List.getLast?_reverse] at zero
  rw [zero] at back
  simp at back

/-- Without a zero at their end, digits write no multiple of ten. -/
theorem not_ten_dvd_toNat
    {digits : List Char}
    (digital : ∀ c ∈ digits, c.isDigit = true)
    (nonempty : digits ≠ [])
    (back : digits.getLast? ≠ some '0') :
    ¬10 ∣ toNat digits := by
  obtain ⟨before, last, rfl⟩ := (List.eq_nil_or_concat digits).resolve_left nonempty
  rw [List.concat_eq_append] at *
  have digit : last.isDigit = true := digital last (by simp)
  have nonzero : last ≠ '0' := by simpa using back
  have below := toNat_sub_lt_ten digit
  have positive := toNat_sub_pos digit nonzero
  rw [toNat_concat]
  omega

/--
The significant digits of a positive number write one that is no multiple of ten, as
short as it can be.
-/
theorem significant_of_toNat_pos
    {digits : List Char}
    (digital : ∀ c ∈ digits, c.isDigit = true)
    (positive : 0 < toNat digits) :
    0 < toNat (significant digits) ∧
      ¬10 ∣ toNat (significant digits) ∧
      (significant digits).length = count (toNat (significant digits)) := by
  obtain ⟨zeros, value⟩ := exists_toNat_eq_significant_mul digits
  have significantPositive : 0 < toNat (significant digits) := by
    rw [value] at positive
    exact Nat.pos_of_mul_pos_right positive
  have nonempty : significant digits ≠ [] := by
    intro empty
    rw [empty] at significantPositive
    exact Nat.lt_irrefl 0 significantPositive
  have inside : ∀ c ∈ significant digits, c.isDigit = true :=
    fun c member => digital c (mem_of_mem_significant member)
  exact ⟨significantPositive,
    not_ten_dvd_toNat inside nonempty (getLast?_significant_ne_zero digits),
    (count_toNat inside nonempty (head?_significant_ne_zero digits)).symm⟩

end Digits
end ExactFormula
