import ExactFormula.Display.Render

/-!
# Derivations

The named outputs of a formula as a list of steps, each after the outputs that
it is computed from, and the same list as a table.
-/

namespace ExactFormula

/-- One step of a derivation. -/
structure Step where
  /-- The name of the output. -/
  name : String
  /-- What the output wraps, with names. -/
  formula : String
  /-- The value of the output. -/
  result : Rat
  /-- The outputs and constants that the formula names. -/
  dependencies : List String

namespace Step

mutual

/-- The names that a formula shows, added in order to those that are known. -/
def addNames : Formula → List String → List String
  | .literal _ _, known => known
  | .constant _ name _, known => if name ∈ known then known else known ++ [name]
  | .output _ name _, known => if name ∈ known then known else known ++ [name]
  | .derived _ _ operands _, known => addNamesOf operands known

/-- The names that the formulas of a list show, added in order. -/
def addNamesOf : List Formula → List String → List String
  | [], known => known
  | x :: rest, known => addNamesOf rest (addNames x known)

end

/-- The step of an output. -/
def ofOutput (name : String) (inner : Formula) : Step :=
  { name
    formula := inner.namedText
    result := inner.value
    dependencies := addNames inner [] }

end Step

/-- The names that have been met and the steps that have been taken. -/
structure Derivation where
  /-- The names of the outputs that have been entered. -/
  seen : List String := []
  /-- The steps, in order. -/
  steps : List Step := []

namespace Derivation

mutual

/--
Add the steps of a formula.  A name that has been met before is passed over
with everything that stands under it; the step of an output follows the steps
of what it wraps.
-/
def visit : Formula → Derivation → Derivation
  | .literal _ _, derivation => derivation
  | .constant _ _ _, derivation => derivation
  | .output _ name inner, derivation =>
      if name ∈ derivation.seen then derivation
      else
        let inside := visit inner { derivation with seen := name :: derivation.seen }
        { inside with steps := inside.steps ++ [Step.ofOutput name inner] }
  | .derived _ _ operands _, derivation => visitAll operands derivation

/-- Add the steps of the formulas of a list. -/
def visitAll : List Formula → Derivation → Derivation
  | [], derivation => derivation
  | x :: rest, derivation => visitAll rest (visit x derivation)

end

end Derivation

namespace Formula

/-- The steps of a formula, one for each name of an output. -/
def derivation (x : Formula) : List Step :=
  (Derivation.visit x {}).steps

/-- The row of a table with three cells. -/
def tableRow (first second third : String) : String :=
  "| " ++ first ++ " | " ++ second ++ " | " ++ third ++ " |\n"

/-- The steps of a formula as a table. -/
def explanation (x : Formula) : String :=
  let rows := x.derivation.map fun step =>
    tableRow step.name step.formula (Number.displayText step.result)
  tableRow "name" "formula" "result" ++ "|------|---------|--------|\n" ++ String.join rows

end Formula
end ExactFormula
