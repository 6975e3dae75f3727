import ExactFormula.Operator

/-!
# Formulas

A formula is an immutable tree that carries its value.  Its leaves are numbers,
with or without a name; a derived formula applies an operator to operands; an
output gives a name to the formula that it wraps.

Every node that has been entered into a store carries its identity there.  A
node without an identity is a draft: it has just been built and is not yet
shared with any other formula.
-/

namespace ExactFormula

/-- The identity of a node. -/
abbrev NodeId := Nat

/-- A formula with its value. -/
inductive Formula
  /-- A number. -/
  | literal (id : Option NodeId) (value : Rat)
  /-- A number with a name, which plays no part in its value. -/
  | constant (id : Option NodeId) (name : String) (value : Rat)
  /-- A formula under a name. -/
  | output (id : Option NodeId) (name : String) (inner : Formula)
  /-- An operator, its operands, and the value that was found when it was built. -/
  | derived (id : Option NodeId) (op : Operator) (operands : List Formula) (value : Rat)

namespace Formula

/-- The identity of the root, unless it is a draft. -/
def id? : Formula → Option NodeId
  | literal id _ => id
  | constant id _ _ => id
  | output id _ _ => id
  | derived id _ _ _ => id

/-- The value; an output has the value of what it wraps. -/
def value : Formula → Rat
  | literal _ value => value
  | constant _ _ value => value
  | output _ _ inner => inner.value
  | derived _ _ _ value => value

/-- The operator of a derived formula. -/
def op? : Formula → Option Operator
  | derived _ op _ _ => some op
  | _ => none

/-- The operands of a derived formula; any other formula has none. -/
def operands : Formula → List Formula
  | derived _ _ operands _ => operands
  | _ => []

/-- The name of a constant or an output. -/
def name? : Formula → Option String
  | constant _ name _ => some name
  | output _ name _ => some name
  | _ => none

/-- What an output wraps. -/
def inner? : Formula → Option Formula
  | output _ _ inner => some inner
  | _ => none

/-- The value of a literal or a constant. -/
def constantValue? : Formula → Option Rat
  | literal _ value => some value
  | constant _ _ value => some value
  | _ => none

/-- The value of a literal. -/
def literalValue? : Formula → Option Rat
  | literal _ value => some value
  | _ => none

/-- Whether a formula is a literal or a constant of value zero. -/
def isZero (x : Formula) : Bool :=
  x.constantValue? = some 0

/-- Whether a formula is a literal or a constant of value one. -/
def isOne (x : Formula) : Bool :=
  x.constantValue? = some 1

mutual

/-- Whether the node of an identity occurs in a formula. -/
def mentions (id : NodeId) : Formula → Bool
  | literal own _ => own = some id
  | constant own _ _ => own = some id
  | output own _ inner => own = some id || mentions id inner
  | derived own _ operands _ => own = some id || anyMentions id operands

/-- Whether the node of an identity occurs in one of the formulas. -/
def anyMentions (id : NodeId) : List Formula → Bool
  | [] => false
  | x :: rest => mentions id x || anyMentions id rest

end

end Formula
end ExactFormula
