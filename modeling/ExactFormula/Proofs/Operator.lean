import ExactFormula.Operator
import Mathlib.Algebra.Field.Rat
import Mathlib.Tactic.Ring

/-!
# Values of chains

A sum and a product are the two operators with any number of operands.  Their
value is the operands joined one after the other, beginning with the neutral
element, so a chain may be cut anywhere and neutral operands may be left out.
-/

namespace ExactFormula
namespace Operator

/-- What a chain of an operator does with two values. -/
def join : Operator → Rat → Rat → Rat
  | add, x, y => x + y
  | _, x, y => x * y

/-- The value that changes nothing in a chain. -/
def neutral : Operator → Rat
  | add => 0
  | _ => 1

/-- The values of a chain joined to one. -/
def total (op : Operator) (values : List Rat) : Rat :=
  values.foldr op.join op.neutral

@[simp] theorem total_nil (op : Operator) : op.total [] = op.neutral := rfl

@[simp] theorem total_cons (op : Operator) (x : Rat) (rest : List Rat) :
    op.total (x :: rest) = op.join x (op.total rest) := rfl

@[simp] theorem join_mul (x y : Rat) : join mul x y = x * y := rfl

theorem neutral_join (op : Operator) (x : Rat) : op.join op.neutral x = x := by
  cases op <;> simp [join, neutral]

theorem join_neutral (op : Operator) (x : Rat) : op.join x op.neutral = x := by
  cases op <;> simp [join, neutral]

/-- It makes no difference how a chain of three values is bracketed. -/
theorem join_assoc (op : Operator) (x y z : Rat) :
    op.join (op.join x y) z = op.join x (op.join y z) := by
  cases op <;> simp only [join] <;> ring

/-- A chain may be cut anywhere. -/
theorem total_append (op : Operator) (left right : List Rat) :
    op.total (left ++ right) = op.join (op.total left) (op.total right) := by
  induction left with
  | nil => rw [List.nil_append, total_nil, neutral_join]
  | cons x rest inductionHypothesis =>
      rw [List.cons_append, total_cons, total_cons, inductionHypothesis, join_assoc]

/-- A product with a factor zero is zero. -/
theorem total_mul_eq_zero {values : List Rat} (zero : 0 ∈ values) : mul.total values = 0 := by
  obtain ⟨before, after, rfl⟩ := List.append_of_mem zero
  rw [total_append, total_cons, join_mul, join_mul, zero_mul, mul_zero]

/-- A chain may be joined from the left as well. -/
theorem foldl_join (op : Operator) (x : Rat) (rest : List Rat) :
    rest.foldl op.join x = op.join x (op.total rest) := by
  induction rest generalizing x with
  | nil => rw [List.foldl_nil, total_nil, join_neutral]
  | cons y rest inductionHypothesis =>
      rw [List.foldl_cons, inductionHypothesis, total_cons, join_assoc]

/-- A chain takes two operands or more. -/
theorem accepts_iff_two_le
    {op : Operator}
    (associative : op.isAssociative = true)
    {count : Nat} :
    op.arity.accepts count = true ↔ 2 ≤ count := by
  cases op with
  | add | mul => simp [arity, Arity.accepts]
  | sub | div | floor | pow => simp [isAssociative] at associative

/-- A chain has a value when it has two operands, and the value is their total. -/
theorem apply_eq_ok_iff
    {op : Operator}
    (associative : op.isAssociative = true)
    {values : List Rat}
    {value : Rat} :
    op.apply values = .ok value ↔ 2 ≤ values.length ∧ op.total values = value := by
  match values with
  | [] => cases op <;> simp [apply, isAssociative] at associative ⊢
  | [x] => cases op <;> simp [apply, isAssociative] at associative ⊢
  | x :: y :: rest =>
      have folded := foldl_join op x (y :: rest)
      have long : 2 ≤ (x :: y :: rest).length := by simp
      cases op with
      | add =>
          rw [total_cons, ← folded]
          simp only [apply, Except.ok.injEq, long, true_and]
          rfl
      | mul =>
          rw [total_cons, ← folded]
          simp only [apply, Except.ok.injEq, long, true_and]
          rfl
      | sub | div | floor | pow => simp [isAssociative] at associative

/-- An operator has a value only at as many operands as it takes. -/
theorem accepts_of_apply_eq_ok
    {op : Operator}
    {values : List Rat}
    {value : Rat}
    (evaluated : op.apply values = .ok value) :
    op.arity.accepts values.length = true := by
  match op, values with
  | add, [] | add, [_] | mul, [] | mul, [_] => simp [apply] at evaluated
  | add, _ :: _ :: _ | mul, _ :: _ :: _ => simp [arity, Arity.accepts]
  | sub, [_, _] | div, [_, _] | pow, [_, _] | floor, [_] => rfl
  | sub, [] | sub, [_] | sub, _ :: _ :: _ :: _ => simp [apply] at evaluated
  | div, [] | div, [_] | div, _ :: _ :: _ :: _ => simp [apply] at evaluated
  | pow, [] | pow, [_] | pow, _ :: _ :: _ :: _ => simp [apply] at evaluated
  | floor, [] | floor, _ :: _ :: _ => simp [apply] at evaluated

/-- A difference has a value. -/
theorem apply_sub (x y : Rat) : sub.apply [x, y] = .ok (x - y) := rfl

/-- A quotient has a value when its divisor is not zero. -/
theorem apply_div_eq_ok_iff {x y value : Rat} :
    div.apply [x, y] = .ok value ↔ y ≠ 0 ∧ x / y = value := by
  by_cases zero : y = 0
  · simp [apply, Number.divide, zero, Except.mapError]
  · simp [apply, Number.divide, zero, Except.mapError]

/-- A power of operands has the value of the power of numbers. -/
theorem apply_pow_eq_ok_iff {x y value : Rat} :
    pow.apply [x, y] = .ok value ↔ Number.power x y = .ok value := by
  rw [apply]
  cases Number.power x y <;> simp [Except.mapError]

end Operator
end ExactFormula
