import ExactFormula.Formula.Basic

/-!
# Building formulas

Every function here gives a draft whose operands are the formulas that it was
given.  Sums and products are kept flat: an operand that is a sum itself gives
its operands to the sum above it, and likewise for products.
-/

namespace ExactFormula
namespace Formula

/-- The literal of a number. -/
def ofRat (value : Rat) : Formula :=
  literal none value

/-- A number under a name. -/
def named (name : String) (value : Rat) : Formula :=
  constant none name value

/-- A formula under a name. -/
def labelled (name : String) (inner : Formula) : Formula :=
  output none name inner

/-- What an operand contributes to a chain: its operands if it is a chain of the same kind. -/
def spliced (op : Operator) : Formula → List Formula
  | derived id child operands value =>
      if child = op then operands else [derived id child operands value]
  | x => [x]

/-- The operands of a flat chain; only chains of associative operators are flattened. -/
def splice (op : Operator) (operands : List Formula) : List Formula :=
  if op.isAssociative then operands.flatMap (spliced op) else operands

/-- A derived formula whose value is known. -/
def ofValue
    (op : Operator)
    (operands : List Formula)
    (value : Rat) :
    Formula :=
  derived none op (splice op operands) value

/-- A derived formula; its value is computed from the values of the operands. -/
def derive (op : Operator) (operands : List Formula) : Except Refusal Formula := do
  pure (ofValue op operands (← op.apply (operands.map Formula.value)))

/-- The sum of two formulas. -/
def add (x y : Formula) : Formula :=
  ofValue .add [x, y] (x.value + y.value)

/-- The difference of two formulas. -/
def sub (x y : Formula) : Formula :=
  ofValue .sub [x, y] (x.value - y.value)

/-- The product of two formulas. -/
def mul (x y : Formula) : Formula :=
  ofValue .mul [x, y] (x.value * y.value)

/-- The quotient of two formulas; it fails where the divisor has the value zero. -/
def div (x y : Formula) : Except Failure Formula := do
  pure (ofValue .div [x, y] (← Number.divide x.value y.value))

/-- The power of two formulas; it fails where their values have none. -/
def pow (x y : Formula) : Except Failure Formula := do
  pure (ofValue .pow [x, y] (← Number.power x.value y.value))

/-- The greatest integer that is at most the value of a formula. -/
def floor (x : Formula) : Formula :=
  ofValue .floor [x] (Number.floor x.value)

/-- The sum of a list, added up from the left; an empty sum is the literal zero. -/
def sum : List Formula → Formula
  | [] => ofRat 0
  | first :: rest => rest.foldl add first

/-- The product of a list, multiplied from the left; an empty product is the literal one. -/
def product : List Formula → Formula
  | [] => ofRat 1
  | first :: rest => rest.foldl mul first

/-- One of the bounds where a value lies beyond it, and the formula itself between them. -/
def clamp (x least greatest : Formula) : Formula :=
  if x.value < least.value then least
  else if greatest.value < x.value then greatest
  else x

end Formula

/-- The operators that join two formulas. -/
inductive BinaryOperator
  /-- The sum. -/
  | add
  /-- The difference. -/
  | sub
  /-- The product. -/
  | mul
  /-- The quotient. -/
  | div
  /-- The power. -/
  | pow
  deriving DecidableEq, Repr

/-- Join two formulas. -/
def Formula.combine : BinaryOperator → Formula → Formula → Except Failure Formula
  | .add, x, y => .ok (x.add y)
  | .sub, x, y => .ok (x.sub y)
  | .mul, x, y => .ok (x.mul y)
  | .div, x, y => x.div y
  | .pow, x, y => x.pow y

/-- The constants that formulas share. -/
inductive StandardConstant
  /-- The number zero. -/
  | zero
  /-- The number one. -/
  | one
  /-- The number of months in a year. -/
  | monthsPerYear
  /-- The divisor that makes a fraction of a percentage. -/
  | percent
  deriving DecidableEq, Repr

namespace StandardConstant

/-- The name under which a constant is shown. -/
def name : StandardConstant → String
  | zero => "zero"
  | one => "one"
  | monthsPerYear => "months per year"
  | percent => "percent"

/-- The value of a constant. -/
def value : StandardConstant → Rat
  | zero => 0
  | one => 1
  | monthsPerYear => 12
  | percent => 100

/-- The formula of a constant. -/
def formula (constant : StandardConstant) : Formula :=
  Formula.named constant.name constant.value

end StandardConstant
end ExactFormula
