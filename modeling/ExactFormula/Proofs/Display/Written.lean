import ExactFormula.Display.Render
import ExactFormula.Proofs.Formula.Term
import ExactFormula.Proofs.Formula.WellFormed

/-!
# The texts of terms

What is written of an expanded formula depends on its term alone: the signs of an
operator stand before, between and after the texts of its operands, and an operand
that holds together less strongly than the operator demands is grouped.
-/

namespace ExactFormula

namespace Operator

/-- The sign of an operator between blanks. -/
def spaced (op : Operator) : List Char :=
  ' ' :: op.symbol.toList ++ [' ']

/-- What stands before the operands. -/
def opening : Operator → List Char
  | div => ['f', 'r', 'a', 'c', '(']
  | floor => ['f', 'l', 'o', 'o', 'r', '(']
  | pow => ['\x7b']
  | _ => []

/-- What stands between two operands. -/
def joint : Operator → List Char
  | div => [',', ' ']
  | floor => [',', ' ']
  | pow => '\x7d' :: pow.spaced ++ ['\x7b']
  | op => op.spaced

/-- What stands after the operands. -/
def closing : Operator → List Char
  | div => [')']
  | floor => [')']
  | pow => ['\x7d']
  | _ => []

/-- How strongly an operator holds its text together; a fraction does so like a function. -/
def strength : Operator → Nat
  | add | sub => 0
  | mul => 1
  | pow => 2
  | div | floor => 3

/-- How strong an operand must be to stand there ungrouped. -/
def demand : Operator → Nat
  | add | sub => 1
  | mul => 2
  | pow => 3
  | div | floor => 0

end Operator

namespace Term

/-- How strongly a term holds its text together. -/
def strength : Term → Nat
  | number _ => 3
  | node op _ => op.strength

/-- The operator of a term. -/
def op? : Term → Option Operator
  | number _ => none
  | node op _ => some op

/-- A text, grouped where its strength falls short of a demand. -/
def grouped (strength demand : Nat) (text : List Char) : List Char :=
  if strength < demand then '\x7b' :: '(' :: (text ++ [')', '\x7d']) else text

mutual

/-- The text of a term. -/
def text : Term → List Char
  | number value => (Number.exactText value).toList
  | node op operands =>
      op.opening ++ op.joint.intercalate (textsUnder op.demand operands) ++ op.closing

/-- The texts of operands of which a strength is demanded. -/
def textsUnder (demand : Nat) : List Term → List (List Char)
  | [] => []
  | x :: rest => grouped x.strength demand x.text :: textsUnder demand rest

end

/-- The text of an operand of which a strength is demanded. -/
def under (demand : Nat) (x : Term) : List Char :=
  grouped x.strength demand x.text

/-- A term that is weaker than its place demands stands in a group. -/
theorem under_of_lt {demand : Nat} {x : Term} (weak : x.strength < demand) :
    x.under demand = '\x7b' :: '(' :: (x.text ++ [')', '\x7d']) :=
  if_pos weak

/-- A term that is as strong as its place demands stands without a group. -/
theorem under_of_le {demand : Nat} {x : Term} (strong : demand ≤ x.strength) :
    x.under demand = x.text :=
  if_neg (Nat.not_lt_of_le strong)

theorem textsUnder_eq_map (demand : Nat) (operands : List Term) :
    textsUnder demand operands = operands.map (under demand) := by
  induction operands with
  | nil => rfl
  | cons x rest inductionHypothesis =>
      rw [textsUnder, inductionHypothesis]
      rfl

/-- The text of a node is its opening, its operands with the joint between them, and its closing. -/
theorem text_node (op : Operator) (operands : List Term) :
    text (node op operands) =
      op.opening ++ op.joint.intercalate (operands.map (under op.demand)) ++ op.closing := by
  rw [text, textsUnder_eq_map]

/-- Every number has a finite decimal, and every operator as many operands as it takes. -/
inductive Printable : Term → Prop
  | number {value : Rat} :
      (Number.decimalPlaces? value).isSome = true → Printable (number value)
  | node
      {op : Operator}
      {operands : List Term} :
      op.arity.accepts operands.length = true → (∀ x ∈ operands, Printable x) →
      Printable (node op operands)

end Term

open Formula

/-- If the formula is a number, with a name or without, it has a finite decimal. -/
def Formula.Terminates (x : Formula) : Prop :=
  x.constantValue?.all (fun value => (Number.decimalPlaces? value).isSome) = true

instance : DecidablePred Formula.Terminates :=
  fun _ => inferInstanceAs (Decidable (_ = true))

theorem Formula.terminates_shape_iff (x : Formula) : x.shape.Terminates ↔ x.Terminates := by
  rw [Terminates, Terminates, shape, constantValue?_relabel keepsValues_named]

/-- Entering a draft does not change its numbers. -/
theorem Store.everywhere_terminates_enter
    {draft : Formula}
    (terminates : Everywhere Terminates draft)
    (held : List Formula)
    (store : Store) :
    Everywhere Terminates (store.enter held draft).1 := by
  rw [← everywhere_shape_iff terminates_shape_iff, shape_enter,
    everywhere_shape_iff terminates_shape_iff]
  exact terminates

mutual

/-- The term of a well-formed formula whose numbers have finite decimals can be printed. -/
theorem Formula.printable_term :
    ∀ x : Formula, WellFormed x → Everywhere Terminates x → x.term.Printable
  | .literal _ value, _, terminates => .number terminates.here
  | .constant _ _ value, _, terminates => .number terminates.here
  | .output _ _ inner, wellFormed, terminates =>
      Formula.printable_term inner (wellFormed_output_iff.mp wellFormed)
        (everywhere_output.mp terminates).2
  | .derived _ op operands _, wellFormed, terminates => by
      obtain ⟨⟨accepted, _⟩, inside⟩ := wellFormed_derived_iff.mp wellFormed
      obtain ⟨length, printable⟩ := Formula.printable_termsOf operands inside
        (everywhere_derived.mp terminates).2
      exact .node (length ▸ accepted) printable

/-- Well-formed operands have one printable term each. -/
theorem Formula.printable_termsOf :
    ∀ operands : List Formula, (∀ x ∈ operands, WellFormed x) →
      (∀ x ∈ operands, Everywhere Terminates x) →
        (termsOf operands).length = operands.length ∧ ∀ x ∈ termsOf operands, x.Printable
  | [], _, _ => ⟨rfl, by simp [termsOf]⟩
  | x :: rest, wellFormed, terminates => by
      rw [List.forall_mem_cons] at wellFormed terminates
      obtain ⟨length, printable⟩ := Formula.printable_termsOf rest wellFormed.2 terminates.2
      rw [termsOf, List.length_cons, length, List.forall_mem_cons]
      exact ⟨rfl, Formula.printable_term x wellFormed.1 terminates.1, printable⟩

end

namespace Settings

variable {settings : Settings} (expand : settings.expand = true)

/--
The layout of an operator is its opening, the operands with the joint between them, and its
closing.
-/
theorem toList_layout (op : Operator) (operands : List String) :
    (layout op operands).toList =
      op.opening ++ op.joint.intercalate (operands.map String.toList) ++ op.closing := by
  cases op <;>
    simp [layout, Operator.opening, Operator.joint, Operator.closing, Operator.spaced,
      Operator.symbol]

include expand

/-- Outputs are seen through. -/
theorem shownOperator?_eq (x : Formula) : settings.shownOperator? x = x.term.op? := by
  fun_induction shownOperator? settings x with
  | case1 => rfl
  | case2 id name inner _ inductionHypothesis => exact inductionHypothesis
  | case3 id name inner hidden => exact absurd expand hidden
  | case4 x notDerived notOutput =>
      cases x with
      | literal => rfl
      | constant => rfl
      | output id name inner => exact absurd rfl (notOutput id name inner)
      | derived id op operands value => exact absurd rfl (notDerived id op operands value)

/-- An operand is put into a group exactly when its term is weaker than the place demands. -/
theorem groups_eq (parent : Operator) (x : Formula) :
    settings.groups parent x = decide (x.term.strength < parent.demand) := by
  unfold groups
  rw [shownOperator?_eq expand]
  cases x.term with
  | number value => cases parent <;> rfl
  | node op operands => cases parent <;> cases op <;> rfl

mutual

/-- An expanded formula whose leaves have finite decimals is rendered as the text of its term. -/
theorem toList_render
    {places : Nat}
    (format : settings.format = .decimal places) :
    ∀ x : Formula, Everywhere Terminates x → (settings.render x).toList = x.term.text
  | .literal _ value, terminates => by
      have finite : (Number.decimalPlaces? value).isSome = true := terminates.here
      rw [render, format, NumberFormat.text, if_pos finite]
      rfl
  | .constant _ _ value, terminates => by
      have finite : (Number.decimalPlaces? value).isSome = true := terminates.here
      rw [render, if_pos expand, format, NumberFormat.text, if_pos finite]
      rfl
  | .output _ _ inner, terminates => by
      rw [render, if_pos expand]
      exact toList_render format inner (everywhere_output.mp terminates).2
  | .derived _ op operands _, terminates => by
      rw [render, toList_layout, toList_renderOperands format op operands
        (everywhere_derived.mp terminates).2]
      rfl

theorem toList_renderOperands
    {places : Nat}
    (format : settings.format = .decimal places)
    (parent : Operator) :
    ∀ operands : List Formula, (∀ x ∈ operands, Everywhere Terminates x) →
      (settings.renderOperands parent operands).map String.toList =
        Term.textsUnder parent.demand (termsOf operands)
  | [], _ => rfl
  | x :: rest, terminates => by
      rw [List.forall_mem_cons] at terminates
      rw [renderOperands, termsOf, Term.textsUnder, List.map_cons,
        toList_renderOperands format parent rest terminates.2,
        ← toList_render format x terminates.1, groups_eq expand]
      by_cases weak : x.term.strength < parent.demand
      · simp [Term.grouped, weak]
      · simp [Term.grouped, weak]

end

end Settings
end ExactFormula
