import ExactFormula.Display.Settings
import ExactFormula.Formula.Basic
import ExactFormula.Number.Binary

/-!
# Rendering

Formulas as text, with grouping only where the strength of the operators asks
for it.  A quotient is written as a fraction, whose notation encloses its
operands and needs no grouping anywhere.
-/

namespace ExactFormula

namespace NumberFormat

/-- The text of a number in a format. -/
def text (format : NumberFormat) (x : Rat) : String :=
  match format with
  | decimal places =>
      if (Number.decimalPlaces? x).isSome then Number.exactText x
      else Number.fixedText x places
  | sigfigs figures =>
      if (Number.significantDigits? x).any (· ≤ figures) then Number.exactText x
      else Number.significantText x figures

end NumberFormat

namespace Settings

/-- The operator that a formula is seen to have; an expanded output shows that of its inside. -/
def shownOperator? (settings : Settings) : Formula → Option Operator
  | .derived _ op _ _ => some op
  | .output _ _ inner => if settings.expand then settings.shownOperator? inner else none
  | _ => none

/--
Whether an operand is grouped under an operator.  Fractions and functions
enclose their operands, a fraction is never grouped, and any other operand is
grouped unless it binds more strongly.
-/
def groups
    (settings : Settings)
    (parent : Operator)
    (operand : Formula) :
    Bool :=
  match parent, settings.shownOperator? operand with
  | .div, _ => false
  | .floor, _ => false
  | _, none => false
  | _, some .div => false
  | parent, some op => op.precedence.rank ≤ parent.precedence.rank

/-- The text of an operator with the texts of its operands. -/
def layout (op : Operator) (operands : List String) : String :=
  match op with
  | .add => " + ".intercalate operands
  | .sub => " - ".intercalate operands
  | .mul => " * ".intercalate operands
  | .div => "frac(" ++ ", ".intercalate operands ++ ")"
  | .floor => "floor(" ++ ", ".intercalate operands ++ ")"
  | .pow => "\x7b" ++ "\x7d ^ \x7b".intercalate operands ++ "\x7d"

mutual

/-- The text of a formula. -/
def render (settings : Settings) : Formula → String
  | .literal _ value => settings.format.text value
  | .constant _ name value => if settings.expand then settings.format.text value else name
  | .output _ name inner => if settings.expand then render settings inner else name
  | .derived _ op operands _ => layout op (renderOperands settings op operands)

/-- The texts of the operands of an operator, grouped where they must be. -/
def renderOperands
    (settings : Settings)
    (parent : Operator) :
    List Formula → List String
  | [] => []
  | x :: rest =>
      let text := render settings x
      (if settings.groups parent x then "\x7b(" ++ text ++ ")\x7d" else text) ::
        renderOperands settings parent rest

end

end Settings

namespace Formula

/-- The text with the names of constants and outputs. -/
def namedText (x : Formula) : String :=
  Settings.render {} x

/-- The text with all names expanded. -/
def fullText (x : Formula) : String :=
  Settings.render { expand := true } x

end Formula
end ExactFormula
