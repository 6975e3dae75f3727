import ExactFormula.Derivation
import ExactFormula.Number.Reading
import ExactFormula.Rewrite.Simplify

/-!
# Commands

What a host can ask of a workspace, what it is answered, and why it may be
refused.
-/

namespace ExactFormula

/-- The width of a machine integer. -/
inductive IntegerWidth
  /-- 32 bits. -/
  | narrow
  /-- 64 bits. -/
  | wide
  deriving DecidableEq, Repr

namespace IntegerWidth

/-- Half of the number of integers of a width. -/
def half : IntegerWidth → Nat
  | narrow => 0x80000000
  | wide => 0x8000000000000000

/-- Whether an integer has a width. -/
def holds (width : IntegerWidth) (n : Int) : Bool :=
  -(width.half : Int) ≤ n && n < width.half

/-- Read an integer of a width. -/
def read? (width : IntegerWidth) (text : String) : Option Int :=
  (Number.readInteger? text.toList).filter width.holds

end IntegerWidth

/-- Why a command is refused. -/
inductive Fault
  /-- A register is empty. -/
  | emptyRegister (name : String)
  /-- A field of the command cannot be understood. -/
  | unreadable (field : String)
  /-- A text is not an integer of the width. -/
  | outOfRange (width : IntegerWidth)
  /-- There is no such operator. -/
  | unknownOperator
  /-- There is no such rule. -/
  | unknownRule
  /-- A formula has no operand at the position. -/
  | noOperand
  /-- A formula is not an output. -/
  | notAnOutput
  /-- The operands do not make a formula. -/
  | refused (cause : Refusal)
  /-- The display settings cannot be read. -/
  | badSettings
  deriving DecidableEq, Repr

/-- What a field of a command holds, or the fault in it. -/
abbrev Field (α : Type) := Except Fault α

/-- The name of a register. -/
abbrev Register := Field String

/-- What a command takes as an operand. -/
inductive Operand
  /-- The formula in a register. -/
  | register (register : Register)
  /-- The literal of a number in writing. -/
  | number (text : String)
  /-- The literal of a machine integer in writing. -/
  | integer (width : IntegerWidth) (text : String)

/-- How a formula is to be shown. -/
inductive DisplayChoice
  /-- With settings in their JSON form. -/
  | json (text : String)
  /-- With these settings. -/
  | settings (settings : Settings)

/-- What a host can ask. -/
inductive Command
  /-- The literal of a number in writing. -/
  | literal (text : String)
  /-- A constant whose value is a number in writing. -/
  | constant (name text : String)
  /-- One of the constants that formulas share. -/
  | standard (constant : StandardConstant)
  /-- A formula under a name. -/
  | output (name : String) (inner : Operand)
  /-- An operator on operands. -/
  | derive (op : Field Operator) (operands : List Operand)
  /-- A binary operator on two operands. -/
  | combine (op : BinaryOperator) (x : Register) (y : Operand)
  /-- The integer part of a formula, rounded down. -/
  | floor (x : Register)
  /-- The sum of operands. -/
  | sum (operands : List Operand)
  /-- The product of operands. -/
  | product (operands : List Operand)
  /-- The operand at a position. -/
  | operandAt (x : Register) (index : Field Nat)
  /-- What an output wraps. -/
  | innerOf (x : Register)
  /-- A formula brought between two bounds. -/
  | clamp (x least greatest : Register)
  /-- All that is known about a formula. -/
  | describe (x : Register)
  /-- The value of a formula. -/
  | valueOf (x : Register)
  /-- The order of two formulas by value. -/
  | compare (x : Register) (y : Operand)
  /-- Whether two formulas are one node. -/
  | same (x y : Register)
  /-- The text of a formula. -/
  | render (x : Register) (display : Field DisplayChoice)
  /-- The derivation of a formula. -/
  | derivation (x : Register)
  /-- The derivation of a formula as a table. -/
  | explanation (x : Register)
  /-- Simplify a formula with rules. -/
  | simplify (x : Register) (rules : Field (List Rule))
  /-- Run one pass of rules over a formula. -/
  | pass (x : Register) (rules : Field (List Rule))
  /-- Apply a rule until it matches nowhere. -/
  | applyRule (x : Register) (rule : Field Rule)
  /-- Rewrite the first match of a rule. -/
  | rewriteFirst (x : Register) (rule : Field Rule)
  /-- Apply a rule to the root. -/
  | applyAtRoot (x : Register) (rule : Field Rule)
  /-- The rules that match the root. -/
  | matching (x : Register)
  /-- Empty a register. -/
  | drop (register : Register)
  /-- Sweep the literal pool. -/
  | sweep
  /-- The size of the literal pool. -/
  | poolSize
  /-- The literal of a number in the private pool. -/
  | internPrivately (text : String)
  /-- Sweep the private pool. -/
  | sweepPrivate
  /-- Begin a new private pool. -/
  | renewPrivate

/-- What a command is answered. -/
inductive Answer
  /-- A formula was made or found. -/
  | formula (x : Formula)
  /-- One of three formulas was chosen, and which of them it is. -/
  | chosen (x : Formula) (same : List Bool)
  /-- All that is known about a formula. -/
  | description (x : Formula)
  /-- A number. -/
  | number (x : Rat)
  /-- The order of two numbers. -/
  | order (order : Ordering)
  /-- Whether two formulas are one node. -/
  | same (same : Bool)
  /-- A text. -/
  | text (text : String)
  /-- The steps of a derivation. -/
  | steps (steps : List Step)
  /-- A table. -/
  | table (text : String)
  /-- A formula was rewritten to another; with a flag where it is asked whether a rule fired. -/
  | rewritten (before after : Formula) (fired : Option Bool)
  /-- No rule applied. -/
  | unchanged
  /-- The rules that match. -/
  | rules (rules : List Rule)
  /-- A register was emptied, if it was not empty already. -/
  | dropped (existed : Bool)
  /-- Entries were evicted from the literal pool, and some remain. -/
  | swept (evicted remaining : Nat)
  /-- The size of the literal pool. -/
  | poolSize (size : Nat)
  /-- A literal was found or made in the private pool, which has this size now. -/
  | interned (literal : Formula) (size : Nat)
  /-- The private pool has this size now. -/
  | privateSize (size : Nat)
  /-- Entries were evicted from the private pool, and some remain. -/
  | privateSwept (evicted remaining : Nat)

/-- The formula that an answer leaves for a register. -/
def Answer.formula? : Answer → Option Formula
  | formula x => some x
  | chosen x _ => some x
  | rewritten _ after _ => some after
  | interned literal _ => some literal
  | _ => none

end ExactFormula
