import ExactFormula.Number.Arithmetic
import ExactFormula.Text.Digits

/-!
# Operators

The six operators of a formula: how many operands each takes, how strongly it
binds, and the value that it gives.
-/

namespace ExactFormula

/-- The number of operands that an operator takes. -/
inductive Arity
  /-- This many operands. -/
  | exactly (count : Nat)
  /-- This many operands or more. -/
  | atLeast (count : Nat)
  deriving DecidableEq, Repr

namespace Arity

/-- Whether a number of operands is allowed. -/
def accepts : Arity → Nat → Bool
  | exactly count, n => n = count
  | atLeast count, n => count ≤ n

/-- An arity in words. -/
def text : Arity → String
  | exactly count => "exactly " ++ Digits.text count
  | atLeast count => "at least " ++ Digits.text count

end Arity

/-- Binding strength, the weakest first. -/
inductive Precedence
  /-- Sums and differences. -/
  | term
  /-- Products and quotients. -/
  | factor
  /-- Powers. -/
  | exponent
  /-- Functions, whose notation encloses their operands. -/
  | call
  deriving DecidableEq, Repr

namespace Precedence

/-- The place in the order of strength. -/
def rank : Precedence → Nat
  | term => 0
  | factor => 1
  | exponent => 2
  | call => 3

/-- The name of a precedence. -/
def name : Precedence → String
  | term => "Term"
  | factor => "Factor"
  | exponent => "Exponent"
  | call => "Call"

end Precedence

/-- The operator of a derived formula. -/
inductive Operator
  /-- The sum of two or more operands. -/
  | add
  /-- The difference of two operands. -/
  | sub
  /-- The product of two or more operands. -/
  | mul
  /-- The quotient of two operands. -/
  | div
  /-- The greatest integer that is at most the operand. -/
  | floor
  /-- The power of a base and an exponent. -/
  | pow
  deriving DecidableEq, Repr

/-- Why operands do not make a formula. -/
inductive Refusal
  /-- The operator does not take that many operands. -/
  | wrongCount (op : Operator) (count : Nat)
  /-- The operator has no value at the values of the operands. -/
  | failure (cause : Failure)
  deriving DecidableEq, Repr

namespace Operator

/-- The operators. -/
def all : List Operator := [add, sub, mul, div, floor, pow]

/-- The name of an operator. -/
def name : Operator → String
  | add => "Add"
  | sub => "Sub"
  | mul => "Mul"
  | div => "Div"
  | floor => "Floor"
  | pow => "Pow"

/-- The operator of a name. -/
def ofName? (name : String) : Option Operator :=
  all.find? (·.name = name)

/-- The sign with which an operator is written. -/
def symbol : Operator → String
  | add => "+"
  | sub => "-"
  | mul => "*"
  | div => "/"
  | floor => "floor"
  | pow => "^"

/-- The number of operands that an operator takes. -/
def arity : Operator → Arity
  | add | mul => .atLeast 2
  | sub | div | pow => .exactly 2
  | floor => .exactly 1

/-- How strongly an operator binds its operands. -/
def precedence : Operator → Precedence
  | add | sub => .term
  | mul | div => .factor
  | pow => .exponent
  | floor => .call

/-- Chains of these operators are kept flat. -/
def isAssociative : Operator → Bool
  | add | mul => true
  | _ => false

/-- Accept a number of operands or refuse it. -/
def checkCount (op : Operator) (count : Nat) : Except Refusal Unit :=
  if op.arity.accepts count then .ok () else .error (.wrongCount op count)

/-- The value of an operator at the values of its operands. -/
def apply : Operator → List Rat → Except Refusal Rat
  | add, x :: y :: rest => .ok ((y :: rest).foldl (· + ·) x)
  | sub, [x, y] => .ok (x - y)
  | mul, x :: y :: rest => .ok ((y :: rest).foldl (· * ·) x)
  | div, [x, y] => (Number.divide x y).mapError .failure
  | floor, [x] => .ok (Number.floor x)
  | pow, [x, y] => (Number.power x y).mapError .failure
  | op, values => .error (.wrongCount op values.length)

end Operator

namespace Refusal

/-- The wording of a refusal. -/
def message : Refusal → String
  | wrongCount op count =>
      op.name ++ " takes " ++ op.arity.text ++ " operands, got " ++ Digits.text count
  | failure cause => cause.message

end Refusal
end ExactFormula
