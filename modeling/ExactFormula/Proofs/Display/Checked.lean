import ExactFormula.Display.Render
import ExactFormula.Proofs.Formula.WellFormed

/-!
# Rendering with checks

Here a rendering breaks off when an operand is missing, and when a chain stands
directly in a chain of its own kind, whose grouping would be a mistake.  A chain
that is seen through outputs is not such a mistake.  On well-formed formulas no
check fails, and nothing else changes.
-/

namespace ExactFormula

open Formula

/-- Why a rendering breaks off. -/
inductive RenderFault
  /-- A chain stands directly in a chain of its own kind. -/
  | unflattened (op : Operator)
  /-- An operator has too few operands. -/
  | missingOperand (op : Operator)
  deriving DecidableEq, Repr

namespace Settings

variable (settings : Settings)

/-- The operator that a formula is seen to have, and whether it is seen through an output. -/
def seenOperator? : Formula → Option (Operator × Bool)
  | .derived _ op _ _ => some (op, false)
  | .output _ _ inner =>
      if settings.expand then (seenOperator? inner).map fun seen => (seen.1, true) else none
  | _ => none

/-- Whether an operand is grouped under an operator. -/
def groupsChecked (parent : Operator) (operand : Formula) : Except RenderFault Bool :=
  match settings.seenOperator? operand with
  | none => pure false
  | some (.div, _) => pure false
  | some (op, throughOutput) =>
      match compare op.precedence.rank parent.precedence.rank with
      | .gt => pure false
      | .lt => pure true
      | .eq =>
          if throughOutput = true ∨ op ≠ parent ∨ op.isAssociative = false then pure true
          else throw (.unflattened op)

/-- The text of an operand, grouped where it must be. -/
def groupChecked (parent : Operator) (operand : Formula) (text : String) :
    Except RenderFault String := do
  pure (if ← settings.groupsChecked parent operand then "\x7b(" ++ text ++ ")\x7d" else text)

mutual

/-- The text of a formula; a quotient and a function enclose their operands and group none. -/
def renderChecked : Formula → Except RenderFault String
  | .literal _ value => pure (settings.format.text value)
  | .constant _ name value => pure (if settings.expand then settings.format.text value else name)
  | .output _ name inner => if settings.expand then renderChecked inner else pure name
  | .derived _ .add operands _ => do
      pure (layout .add (← renderChainChecked .add operands))
  | .derived _ .mul operands _ => do
      pure (layout .mul (← renderChainChecked .mul operands))
  | .derived _ .sub (left :: right :: _) _ => do
      let first ← settings.groupChecked .sub left (← renderChecked left)
      let second ← settings.groupChecked .sub right (← renderChecked right)
      pure (layout .sub [first, second])
  | .derived _ .div (left :: right :: _) _ => do
      pure (layout .div [← renderChecked left, ← renderChecked right])
  | .derived _ .floor (operand :: _) _ => do
      pure (layout .floor [← renderChecked operand])
  | .derived _ .pow (base :: exponent :: _) _ => do
      let first ← settings.groupChecked .pow base (← renderChecked base)
      let second ← settings.groupChecked .pow exponent (← renderChecked exponent)
      pure (layout .pow [first, second])
  | .derived _ op _ _ => throw (.missingOperand op)

/-- The texts of the operands of a chain. -/
def renderChainChecked (parent : Operator) : List Formula → Except RenderFault (List String)
  | [] => pure []
  | x :: rest => do
      let first ← settings.groupChecked parent x (← renderChecked x)
      pure (first :: (← renderChainChecked parent rest))

end

theorem map_fst_seenOperator? (x : Formula) :
    (settings.seenOperator? x).map Prod.fst = settings.shownOperator? x := by
  fun_induction seenOperator? settings x with
  | case1 => rfl
  | case2 id name inner expand inductionHypothesis =>
      rw [shownOperator?, if_pos expand, ← inductionHypothesis, Option.map_map]
      rfl
  | case3 id name inner expand => rw [shownOperator?, if_neg expand, Option.map_none]
  | case4 x notDerived notOutput =>
      cases x with
      | literal => rfl
      | constant => rfl
      | output id name inner => exact absurd rfl (notOutput id name inner)
      | derived id op operands value => exact absurd rfl (notDerived id op operands value)

/-- An operator that is not seen through an output is that of the formula itself. -/
theorem op?_of_seenOperator?
    {x : Formula}
    {op : Operator}
    (seen : settings.seenOperator? x = some (op, false)) :
    x.op? = some op := by
  cases x with
  | derived id own operands value =>
      simp only [seenOperator?, Option.some.injEq, Prod.mk.injEq, and_true] at seen
      exact congrArg some seen
  | output id name inner =>
      rw [seenOperator?] at seen
      split at seen
      · simp at seen
      · simp at seen
  | _ => simp [seenOperator?] at seen

/-- An operand that is no chain of the kind of the one above it passes the check. -/
theorem groupsChecked_eq_ok
    {parent : Operator}
    {operand : Formula}
    (groups : parent ≠ .div ∧ parent ≠ .floor)
    (flat : parent.isAssociative = true → operand.op? ≠ some parent) :
    settings.groupsChecked parent operand = .ok (settings.groups parent operand) := by
  unfold groupsChecked Settings.groups
  rw [← map_fst_seenOperator?]
  cases seen : settings.seenOperator? operand with
  | none => cases parent <;> rfl
  | some found =>
      obtain ⟨op, throughOutput⟩ := found
      have allowed : op = parent → op.isAssociative = true → throughOutput = true := by
        rintro rfl associative
        by_contra direct
        rw [Bool.not_eq_true] at direct
        subst direct
        exact flat associative (settings.op?_of_seenOperator? seen)
      revert groups allowed
      cases parent <;> cases op <;> cases throughOutput <;> decide

/-- The assertion about grouping never fails on an operand of a flat chain. -/
theorem groupChecked_eq_ok
    {parent : Operator}
    {operand : Formula}
    (groups : parent ≠ .div ∧ parent ≠ .floor)
    (flat : parent.isAssociative = true → operand.op? ≠ some parent)
    (text : String) :
    settings.groupChecked parent operand text =
      .ok (if settings.groups parent operand then "\x7b(" ++ text ++ ")\x7d" else text) := by
  rw [groupChecked, settings.groupsChecked_eq_ok groups flat]
  rfl

mutual

/-- A well-formed formula is rendered without a fault. -/
theorem renderChecked_eq_ok :
    ∀ x : Formula, WellFormed x → settings.renderChecked x = .ok (settings.render x)
  | .literal _ _, _ => rfl
  | .constant _ _ _, _ => rfl
  | .output _ name inner, wellFormed => by
      rw [renderChecked, render, renderChecked_eq_ok inner (wellFormed_output_iff.mp wellFormed)]
      split <;> rfl
  | .derived _ op operands value, wellFormed => by
      obtain ⟨⟨accepted, flat⟩, inside⟩ := wellFormed_derived_iff.mp wellFormed
      match op, operands with
      | .add, operands =>
          rw [renderChecked, renderChainChecked_eq_ok (by decide) operands inside (flat rfl)]
          rfl
      | .mul, operands =>
          rw [renderChecked, renderChainChecked_eq_ok (by decide) operands inside (flat rfl)]
          rfl
      | .sub, [left, right] =>
          have single : Operator.isAssociative .sub = true → False := by decide
          rw [renderChecked, renderChecked_eq_ok left (inside left (by simp)),
            renderChecked_eq_ok right (inside right (by simp))]
          simp only [bind, Except.bind,
            settings.groupChecked_eq_ok (by decide) fun chain => (single chain).elim]
          rfl
      | .div, [left, right] =>
          rw [renderChecked, renderChecked_eq_ok left (inside left (by simp)),
            renderChecked_eq_ok right (inside right (by simp))]
          rfl
      | .floor, [operand] =>
          rw [renderChecked, renderChecked_eq_ok operand (inside operand (by simp))]
          rfl
      | .pow, [base, exponent] =>
          have single : Operator.isAssociative .pow = true → False := by decide
          rw [renderChecked, renderChecked_eq_ok base (inside base (by simp)),
            renderChecked_eq_ok exponent (inside exponent (by simp))]
          simp only [bind, Except.bind,
            settings.groupChecked_eq_ok (by decide) fun chain => (single chain).elim]
          rfl

theorem renderChainChecked_eq_ok
    {parent : Operator}
    (groups : parent ≠ .div ∧ parent ≠ .floor) :
    ∀ operands : List Formula, (∀ x ∈ operands, WellFormed x) →
      (∀ x ∈ operands, x.op? ≠ some parent) →
        settings.renderChainChecked parent operands =
          .ok (settings.renderOperands parent operands)
  | [], _, _ => rfl
  | x :: rest, wellFormed, flat => by
      rw [List.forall_mem_cons] at wellFormed flat
      rw [renderChainChecked, renderOperands, renderChecked_eq_ok x wellFormed.1]
      simp only [bind, Except.bind, settings.groupChecked_eq_ok groups fun _ => flat.1,
        renderChainChecked_eq_ok groups rest wellFormed.2 flat.2]
      rfl

end

end Settings
end ExactFormula
