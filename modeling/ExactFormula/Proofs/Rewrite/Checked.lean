import ExactFormula.Proofs.Store.Session

/-!
# Rewriting with checks

Here a derived formula is refused when its operator does not take as many
operands as it is given, and rules look at operands whatever their number is.  On
well-formed formulas no check fails, and nothing else changes.
-/

namespace ExactFormula

namespace Formula

/-! ## Building -/

/-- A derived formula whose value is known, unless it has the wrong number of operands. -/
def ofValueChecked
    (op : Operator)
    (operands : List Formula)
    (value : Rat) :
    Except Refusal Formula := do
  op.checkCount operands.length
  pure (ofValue op operands value)

/-- The product of two formulas. -/
def mulChecked (x y : Formula) : Except Refusal Formula :=
  ofValueChecked .mul [x, y] (x.value * y.value)

/-- The quotient of two formulas; where their values have none, there is nothing to check. -/
def divChecked? (x y : Formula) : Except Refusal (Option Formula) :=
  match Number.divide x.value y.value with
  | .ok value => some <$> ofValueChecked .div [x, y] value
  | .error _ => pure none

/-- The product of a list, multiplied from the left. -/
def productChecked : List Formula → Except Refusal Formula
  | [] => pure (ofRat 1)
  | first :: rest => rest.foldlM mulChecked first

/-- The check lets every number of operands pass that the operator accepts. -/
theorem ofValueChecked_eq_ok
    {op : Operator}
    {operands : List Formula}
    (accepted : op.arity.accepts operands.length = true)
    (value : Rat) :
    ofValueChecked op operands value = .ok (ofValue op operands value) := by
  rw [ofValueChecked, Operator.checkCount, if_pos accepted]
  rfl

theorem mulChecked_eq_ok (x y : Formula) : mulChecked x y = .ok (mul x y) :=
  ofValueChecked_eq_ok rfl _

theorem divChecked?_eq_ok (x y : Formula) : divChecked? x y = .ok (div x y).toOption := by
  rw [divChecked?, div]
  cases Number.divide x.value y.value with
  | error cause => rfl
  | ok value => exact congrArg (some <$> ·) (ofValueChecked_eq_ok rfl value)

/-- No multiplication of a product fails its check. -/
theorem productChecked_eq_ok (factors : List Formula) :
    productChecked factors = .ok (product factors) := by
  cases factors with
  | nil => rfl
  | cons first rest =>
      rw [productChecked, product]
      induction rest generalizing first with
      | nil => rfl
      | cons x rest inductionHypothesis =>
          rw [List.foldlM_cons, mulChecked_eq_ok, List.foldl_cons]
          exact inductionHypothesis (mul first x)

/-! ## Looking at operands -/

/-- The operands of a formula with the given operator, whatever their number is. -/
def operandsUnder? (op : Operator) (x : Formula) : Option (List Formula) :=
  if x.op? = some op then some x.operands else none

/-- The operands of a formula with the given operator, where there are two of them. -/
def pairUnder? (op : Operator) (x : Formula) : Option (Formula × Formula) :=
  match x.operandsUnder? op with
  | some [left, right] => some (left, right)
  | _ => none

/-- In a well-formed formula the number of operands need not be looked at. -/
theorem operandsUnder?_eq
    {x : Formula}
    (wellFormed : WellFormed x)
    (op : Operator) :
    x.operandsUnder? op = x.operandsOf? op := by
  cases x with
  | derived id own operands value =>
      by_cases same : own = op
      · subst same
        have accepted := (wellFormed_derived_iff.mp wellFormed).1.1
        simp [operandsUnder?, operandsOf?, op?, Formula.operands, accepted]
      · simp [operandsUnder?, operandsOf?, op?, same]
  | _ => simp [operandsUnder?, operandsOf?, op?]

theorem pairUnder?_eq
    {x : Formula}
    (wellFormed : WellFormed x)
    (op : Operator) :
    x.pairUnder? op = x.pairOf? op := by
  rw [pairUnder?, operandsUnder?_eq wellFormed]
  rfl

/-! ## Rules -/

/-- The chain without its identity elements, unless it has none. -/
def dropIdentitiesChecked
    (op : Operator)
    (isIdentity : Formula → Bool)
    (x : Formula) :
    Except Refusal (Option Formula) :=
  match x.operandsUnder? op with
  | none => pure none
  | some operands =>
      let kept := operands.filter fun operand => !isIdentity operand
      if kept.length = operands.length then pure none
      else
        match kept with
        | [] => pure (some (ofRat x.value))
        | [single] => pure (some single)
        | _ => some <$> ofValueChecked op kept x.value

/-- A product with a fraction among its factors becomes one fraction. -/
def absorbFractionChecked (x : Formula) : Except Refusal (Option Formula) :=
  match x.operandsUnder? .mul with
  | none => pure none
  | some factors =>
      match splitFirst? (operandsUnder? .div) factors with
      | some (before, [numerator, denominator], after) => do
          divChecked? (← productChecked (before ++ after ++ [numerator])) denominator
      | _ => pure none

/-- A product with a literal minus one and another literal loses the one and negates the other. -/
def foldSignChecked (x : Formula) : Except Refusal (Option Formula) :=
  match x.operandsUnder? .mul with
  | none => pure none
  | some factors =>
      match splitFirst? minusOne? factors with
      | none => pure none
      | some (before, _, after) =>
          match splitFirst? literalValue? (before ++ after) with
          | none => pure none
          | some (front, value, back) =>
              match front ++ ofRat (-value) :: back with
              | [single] => pure (some single)
              | remaining => some <$> ofValueChecked .mul remaining x.value

/-- A chain that loses its identity elements keeps enough operands for its operator. -/
theorem dropIdentitiesChecked_eq_ok
    {x : Formula}
    (wellFormed : WellFormed x)
    {op : Operator}
    (associative : op.isAssociative = true)
    (isIdentity : Formula → Bool) :
    dropIdentitiesChecked op isIdentity x = .ok (x.dropIdentities? op isIdentity) := by
  rw [dropIdentitiesChecked, dropIdentities?, operandsUnder?_eq wellFormed]
  cases x.operandsOf? op with
  | none => rfl
  | some operands =>
      simp only [Option.bind_eq_bind, Option.bind_some]
      generalize operands.filter (fun operand => !isIdentity operand) = kept
      split
      · rfl
      · match kept with
        | [] => rfl
        | [single] => rfl
        | first :: second :: rest =>
            have accepted := (Operator.accepts_iff_two_le associative).mpr
              (show 2 ≤ (first :: second :: rest).length by simp)
            exact congrArg (some <$> ·) (ofValueChecked_eq_ok accepted x.value)

/-- The operands that are found between two parts of a list, if there are two of them. -/
def pairBetween? :
    List Formula × List Formula × List Formula →
      Option (List Formula × (Formula × Formula) × List Formula)
  | (before, [left, right], after) => some (before, (left, right), after)
  | _ => none

/-- The first quotient among well-formed formulas has a numerator and a denominator. -/
theorem splitFirst?_fraction?
    {factors : List Formula}
    (wellFormed : ∀ x ∈ factors, WellFormed x) :
    splitFirst? fraction? factors =
      (splitFirst? (operandsUnder? .div) factors).bind pairBetween? := by
  induction factors with
  | nil => rfl
  | cons x rest inductionHypothesis =>
      rw [List.forall_mem_cons] at wellFormed
      rw [splitFirst?, splitFirst?, fraction?, ← pairUnder?_eq wellFormed.1, pairUnder?]
      cases found : x.operandsUnder? .div with
      | some operands =>
          rw [operandsUnder?_eq wellFormed.1] at found
          obtain ⟨left, right, rfl⟩ := List.length_eq_two.mp
            (of_decide_eq_true (operandsOf?_eq_some found).1)
          rfl
      | none =>
          simp only [inductionHypothesis wellFormed.2]
          cases splitFirst? (operandsUnder? .div) rest with
          | none => rfl
          | some split =>
              obtain ⟨before, _ | ⟨_, _ | ⟨_, _ | ⟨_, _⟩⟩⟩, after⟩ := split <;> rfl

/-- The first fraction of a well-formed product is absorbed without a failed check. -/
theorem absorbFractionChecked_eq_ok {x : Formula} (wellFormed : WellFormed x) :
    absorbFractionChecked x = .ok x.absorbFraction? := by
  rw [absorbFractionChecked, absorbFraction?, operandsUnder?_eq wellFormed]
  cases found : x.operandsOf? .mul with
  | none => rfl
  | some factors =>
      have inside := inherited_wellFormed.hereditary.of_operandsOf? wellFormed found
      simp only [Option.bind_eq_bind, Option.bind_some]
      rw [splitFirst?_fraction? inside]
      cases splitFirst? (operandsUnder? .div) factors with
      | none => rfl
      | some split =>
          obtain ⟨before, _ | ⟨numerator, _ | ⟨denominator, _ | ⟨_, _⟩⟩⟩, after⟩ := split
          · rfl
          · rfl
          · simp only [productChecked_eq_ok, Option.bind_some]
            exact divChecked?_eq_ok _ _
          · rfl

/-- The sign of a well-formed product is folded without a failed check. -/
theorem foldSignChecked_eq_ok {x : Formula} (wellFormed : WellFormed x) :
    foldSignChecked x = .ok x.foldSign? := by
  rw [foldSignChecked, foldSign?, operandsUnder?_eq wellFormed]
  cases x.operandsOf? .mul with
  | none => rfl
  | some factors =>
      simp only [Option.bind_eq_bind, Option.bind_some]
      cases splitFirst? minusOne? factors with
      | none => rfl
      | some split =>
          obtain ⟨before, _, after⟩ := split
          simp only [Option.bind_some]
          cases splitFirst? literalValue? (before ++ after) with
          | none => rfl
          | some split =>
              obtain ⟨front, value, back⟩ := split
              simp only [Option.bind_some]
              cases list : front ++ ofRat (-value) :: back with
              | nil => simp at list
              | cons first rest =>
                  cases rest with
                  | nil => rfl
                  | cons second rest =>
                      have accepted : Operator.mul.arity.accepts
                          (first :: second :: rest).length = true := by
                        simp [Operator.arity, Arity.accepts]
                      exact congrArg (some <$> ·) (ofValueChecked_eq_ok accepted x.value)

end Formula

namespace Rule

open Formula

/-- The replacement that a rule gives for a formula, unless it declines. -/
def applyChecked (rule : Rule) (x : Formula) : Except Refusal (Option Formula) :=
  match rule with
  | additiveIdentity => x.dropIdentitiesChecked .add isZero
  | multiplicativeIdentity => x.dropIdentitiesChecked .mul isOne
  | productAbsorbsFraction => x.absorbFractionChecked
  | signCollapse => x.foldSignChecked
  | multiplicativeCollapse =>
      match x.operandsUnder? .mul with
      | some factors => pure (if factors.any isZero then some (ofRat 0) else none)
      | none => pure none
  | subtractiveIdentity =>
      match x.pairUnder? .sub with
      | some (left, right) => pure (if right.isZero then some left else none)
      | none => pure none
  | subtractionFromZero =>
      match x.pairUnder? .sub with
      | some (left, right) =>
          if left.isZero then some <$> mulChecked (ofRat (-1)) right else pure none
      | none => pure none
  | divisionIdentity =>
      match x.pairUnder? .div with
      | some (numerator, denominator) =>
          pure (if denominator.isOne then some numerator else none)
      | none => pure none
  | divisionCollapse =>
      match x.pairUnder? .div with
      | some (numerator, _) => pure (if numerator.isZero then some (ofRat 0) else none)
      | none => pure none
  | denominatorIsFraction =>
      match x.pairUnder? .div with
      | some (numerator, denominator) =>
          match denominator.pairUnder? .div with
          | some (above, below) => do divChecked? (← mulChecked numerator below) above
          | none => pure none
      | none => pure none
  | numeratorIsFraction =>
      match x.pairUnder? .div with
      | some (numerator, denominator) =>
          match numerator.pairUnder? .div with
          | some (above, below) => do divChecked? above (← mulChecked below denominator)
          | none => pure none
      | none => pure none
  | powerIdentity =>
      match x.pairUnder? .pow with
      | some (base, exponent) => pure (if exponent.isOne then some base else none)
      | none => pure none
  | powerCollapse =>
      match x.pairUnder? .pow with
      | some (base, exponent) =>
          pure <|
            if exponent.isZero then some (ofRat 1)
            else if base.isZero then some (ofRat 0)
            else if base.isOne then some (ofRat 1)
            else none
      | none => pure none

/-- No rule builds anything with a wrong number of operands from a well-formed formula. -/
theorem applyChecked_eq_ok
    {x : Formula}
    (wellFormed : WellFormed x)
    (rule : Rule) :
    rule.applyChecked x = .ok (rule.apply x) := by
  have pairs := pairUnder?_eq wellFormed
  cases rule with
  | additiveIdentity => exact dropIdentitiesChecked_eq_ok wellFormed rfl isZero
  | multiplicativeIdentity => exact dropIdentitiesChecked_eq_ok wellFormed rfl isOne
  | productAbsorbsFraction => exact absorbFractionChecked_eq_ok wellFormed
  | signCollapse => exact foldSignChecked_eq_ok wellFormed
  | multiplicativeCollapse =>
      rw [applyChecked, apply, operandsUnder?_eq wellFormed]
      cases x.operandsOf? .mul <;> rfl
  | subtractiveIdentity =>
      rw [applyChecked, apply, pairs]
      cases x.pairOf? .sub <;> rfl
  | subtractionFromZero =>
      rw [applyChecked, apply, pairs]
      cases x.pairOf? .sub with
      | none => rfl
      | some pair =>
          simp only [mulChecked_eq_ok, Option.bind_eq_bind, Option.bind_some]
          split <;> rfl
  | divisionIdentity =>
      rw [applyChecked, apply, pairs, fraction?]
      cases x.pairOf? .div <;> rfl
  | divisionCollapse =>
      rw [applyChecked, apply, pairs, fraction?]
      cases x.pairOf? .div <;> rfl
  | denominatorIsFraction =>
      rw [applyChecked, apply, pairs, fraction?]
      cases found : x.pairOf? .div with
      | none => rfl
      | some pair =>
          have inside := (inherited_wellFormed.hereditary.of_pairOf? wellFormed found).2
          simp only [Option.bind_eq_bind, Option.bind_some, pairUnder?_eq inside, fraction?]
          cases pair.2.pairOf? .div with
          | none => rfl
          | some parts =>
              simp only [mulChecked_eq_ok, Option.bind_some]
              exact divChecked?_eq_ok _ _
  | numeratorIsFraction =>
      rw [applyChecked, apply, pairs, fraction?]
      cases found : x.pairOf? .div with
      | none => rfl
      | some pair =>
          have inside := (inherited_wellFormed.hereditary.of_pairOf? wellFormed found).1
          simp only [Option.bind_eq_bind, Option.bind_some, pairUnder?_eq inside, fraction?]
          cases pair.1.pairOf? .div with
          | none => rfl
          | some parts =>
              simp only [mulChecked_eq_ok, Option.bind_some]
              exact divChecked?_eq_ok _ _
  | powerIdentity =>
      rw [applyChecked, apply, pairs]
      cases x.pairOf? .pow <;> rfl
  | powerCollapse =>
      rw [applyChecked, apply, pairs]
      cases x.pairOf? .pow <;> rfl

end Rule

/-! ## The first match -/

namespace Formula

mutual

/-- Replace the first node that the rule matches; the nodes above it are checked. -/
def rewriteFirstChecked? (rule : Formula → Except Refusal (Option Formula)) :
    Formula → Except Refusal (Option Formula)
  | literal id value => rule (literal id value)
  | constant id name value => rule (constant id name value)
  | output _ name inner => Option.map (labelled name) <$> rewriteFirstChecked? rule inner
  | derived id op operands value => do
      match ← rule (derived id op operands value) with
      | some replacement => pure (some replacement)
      | none =>
          match ← rewriteFirstOfChecked? rule operands with
          | some rebuilt => some <$> ofValueChecked op rebuilt value
          | none => pure none

/-- Rewrite inside the first formula of a list that has a match. -/
def rewriteFirstOfChecked? (rule : Formula → Except Refusal (Option Formula)) :
    List Formula → Except Refusal (Option (List Formula))
  | [] => pure none
  | x :: rest => do
      match ← rewriteFirstChecked? rule x with
      | some replacement => pure (some (replacement :: rest))
      | none => Option.map (x :: ·) <$> rewriteFirstOfChecked? rule rest

end

/-- Rewriting inside an operand list keeps its length. -/
theorem length_of_rewriteFirstOf?
    {rule : Formula → Option Formula}
    {operands rebuilt : List Formula}
    (rewritten : rewriteFirstOf? rule operands = some rebuilt) :
    rebuilt.length = operands.length := by
  obtain ⟨before, x, after, y, _, _, rfl, rfl, _⟩ := replaces_of_rewriteFirstOf? operands rewritten
  rw [List.length_append, List.length_append, List.length_cons, List.length_cons]

mutual

/-- The nodes above a match are built anew with as many operands as they had. -/
theorem rewriteFirstChecked?_eq_ok (rule : Rule) :
    ∀ x : Formula, WellFormed x →
      rewriteFirstChecked? rule.applyChecked x = .ok (x.rewriteFirst? rule.apply)
  | literal _ _, wellFormed => Rule.applyChecked_eq_ok wellFormed rule
  | constant _ _ _, wellFormed => Rule.applyChecked_eq_ok wellFormed rule
  | output _ name inner, wellFormed => by
      rw [rewriteFirstChecked?, rewriteFirst?,
        rewriteFirstChecked?_eq_ok rule inner (wellFormed_output_iff.mp wellFormed)]
      rfl
  | derived id op operands value, wellFormed => by
      obtain ⟨⟨accepted, _⟩, inside⟩ := wellFormed_derived_iff.mp wellFormed
      rw [rewriteFirstChecked?, rewriteFirst?, Rule.applyChecked_eq_ok wellFormed]
      cases rule.apply (derived id op operands value) with
      | some replacement => rfl
      | none =>
          simp only [bind, Except.bind, rewriteFirstOfChecked?_eq_ok rule operands inside]
          cases rewritten : rewriteFirstOf? rule.apply operands with
          | none => rfl
          | some rebuilt =>
              rw [← length_of_rewriteFirstOf? rewritten] at accepted
              exact congrArg (some <$> ·) (ofValueChecked_eq_ok accepted value)

theorem rewriteFirstOfChecked?_eq_ok (rule : Rule) :
    ∀ operands : List Formula, (∀ x ∈ operands, WellFormed x) →
      rewriteFirstOfChecked? rule.applyChecked operands =
        .ok (rewriteFirstOf? rule.apply operands)
  | [], _ => rfl
  | x :: rest, wellFormed => by
      rw [List.forall_mem_cons] at wellFormed
      rw [rewriteFirstOfChecked?, rewriteFirstOf?,
        rewriteFirstChecked?_eq_ok rule x wellFormed.1]
      cases x.rewriteFirst? rule.apply with
      | some y => rfl
      | none =>
          simp only [bind, Except.bind, rewriteFirstOfChecked?_eq_ok rule rest wellFormed.2]
          rfl

end

end Formula
end ExactFormula
