import ExactFormula.Proofs.Formula.Relabelling

/-!
# Rewriting under a relabelling

A rule does the same to a relabelled formula as to the formula itself, because
it reads nothing but operators and the values of leaves.  Folding a sign is the
one rule that tells literals from constants, and it asks for a relabelling that
does so too.
-/

namespace ExactFormula

/-- A list and its image are split at the same place, if the test sees the same in both. -/
theorem splitFirst?_map
    {α β γ δ : Type}
    (f : α → β)
    (g : γ → δ)
    {test : α → Option γ}
    {image : β → Option δ}
    (commutes : ∀ x, image (f x) = (test x).map g)
    (entries : List α) :
    splitFirst? image (entries.map f) =
      (splitFirst? test entries).map fun split =>
        (split.1.map f, g split.2.1, split.2.2.map f) := by
  induction entries with
  | nil => rfl
  | cons x rest inductionHypothesis =>
      rw [List.map_cons, splitFirst?, splitFirst?, commutes, inductionHypothesis]
      cases test x with
      | some found => rfl
      | none => cases splitFirst? test rest <;> rfl

namespace Formula

variable {leaf : String → Rat → Formula}

/-- The operands that a rule takes out of a node are relabelled with it. -/
theorem operandsOf?_relabel
    (keeps : KeepsValues leaf)
    (op : Operator)
    (x : Formula) :
    (relabel leaf x).operandsOf? op = (x.operandsOf? op).map (List.map (relabel leaf)) := by
  cases x with
  | literal id value => rfl
  | constant id name value =>
      obtain ⟨own, same⟩ | ⟨own, shown, same⟩ := keeps.leaf_cases name value <;>
        rw [relabel_constant, same] <;> rfl
  | output id name inner => rfl
  | derived id own operands value =>
      rw [relabel_derived, operandsOf?, operandsOf?, List.length_map]
      split <;> rfl

theorem pairOf?_relabel
    (keeps : KeepsValues leaf)
    (op : Operator)
    (x : Formula) :
    (relabel leaf x).pairOf? op =
      (x.pairOf? op).map (Prod.map (relabel leaf) (relabel leaf)) := by
  rw [pairOf?, pairOf?, operandsOf?_relabel keeps]
  cases x.operandsOf? op with
  | none => rfl
  | some operands =>
      match operands with
      | [] | [_] | [_, _] | _ :: _ :: _ :: _ => rfl

/-- What is done with a pair of operands commutes if it does so with every pair. -/
theorem pairOf?_bind_relabel
    (keeps : KeepsValues leaf)
    (op : Operator)
    {result image : Formula × Formula → Option Formula}
    (commutes : ∀ left right, image (relabel leaf left, relabel leaf right) =
      (result (left, right)).map (relabel leaf))
    (x : Formula) :
    (relabel leaf x).pairOf? op >>= image = (x.pairOf? op >>= result).map (relabel leaf) := by
  rw [pairOf?_relabel keeps]
  cases x.pairOf? op with
  | none => rfl
  | some pair => exact commutes pair.1 pair.2

theorem fraction?_relabel (keeps : KeepsValues leaf) (x : Formula) :
    (relabel leaf x).fraction? =
      x.fraction?.map (Prod.map (relabel leaf) (relabel leaf)) :=
  pairOf?_relabel keeps .div x

/-- Identity elements are dropped alike, if relabelling does not change which these are. -/
theorem dropIdentities?_relabel
    (keeps : KeepsValues leaf)
    {op : Operator}
    {isIdentity : Formula → Bool}
    (commutes : ∀ x, isIdentity (relabel leaf x) = isIdentity x)
    (x : Formula) :
    (relabel leaf x).dropIdentities? op isIdentity =
      (x.dropIdentities? op isIdentity).map (relabel leaf) := by
  unfold dropIdentities?
  rw [operandsOf?_relabel keeps, value_relabel keeps]
  cases x.operandsOf? op with
  | none => rfl
  | some operands =>
      have kept : (operands.map (relabel leaf)).filter (fun operand => !isIdentity operand) =
          (operands.filter fun operand => !isIdentity operand).map (relabel leaf) := by
        rw [List.filter_map]
        congr 2
        funext operand
        exact congrArg not (commutes operand)
      simp only [Option.map_some, Option.bind_eq_bind, Option.bind_some, kept, List.length_map]
      split
      · rfl
      · match operands.filter fun operand => !isIdentity operand with
        | [] => rfl
        | [single] => rfl
        | first :: second :: rest =>
            exact congrArg some (relabel_ofValue keeps op _ x.value).symm

theorem toOption_map {α β : Type} (f : α → β) (result : Except Failure α) :
    (result.map f).toOption = result.toOption.map f := by
  cases result <;> rfl

/-- A fraction is absorbed alike before and after relabelling. -/
theorem absorbFraction?_relabel (keeps : KeepsValues leaf) (x : Formula) :
    (relabel leaf x).absorbFraction? = x.absorbFraction?.map (relabel leaf) := by
  unfold absorbFraction?
  rw [operandsOf?_relabel keeps]
  cases x.operandsOf? .mul with
  | none => rfl
  | some factors =>
      simp only [Option.map_some, Option.bind_eq_bind, Option.bind_some]
      rw [splitFirst?_map (relabel leaf) _ (fraction?_relabel keeps)]
      cases splitFirst? fraction? factors with
      | none => rfl
      | some split =>
          obtain ⟨before, ⟨numerator, denominator⟩, after⟩ := split
          simp only [Option.map_some, Option.bind_some, Prod.map]
          rw [← toOption_map, ← div_relabel keeps, relabel_product keeps]
          simp only [List.map_append, List.map_cons, List.map_nil]

/-- A sign is folded alike, if relabelling makes no literal of a constant. -/
theorem foldSign?_relabel
    (keeps : KeepsValues leaf)
    (unread : ∀ name value, (leaf name value).literalValue? = none)
    (x : Formula) :
    (relabel leaf x).foldSign? = x.foldSign?.map (relabel leaf) := by
  have reads := literalValue?_relabel unread
  have literals : ∀ y, literalValue? (relabel leaf y) = (literalValue? y).map id := by
    intro y
    rw [reads, Option.map_id, id]
  have signs : ∀ y, minusOne? (relabel leaf y) = (minusOne? y).map id := by
    intro y
    rw [minusOne?, minusOne?, reads, Option.map_id, id]
  unfold foldSign?
  rw [operandsOf?_relabel keeps, value_relabel keeps]
  cases x.operandsOf? .mul with
  | none => rfl
  | some factors =>
      simp only [Option.map_some, Option.bind_eq_bind, Option.bind_some]
      rw [splitFirst?_map (relabel leaf) id signs]
      cases splitFirst? minusOne? factors with
      | none => rfl
      | some split =>
          obtain ⟨before, found, after⟩ := split
          simp only [Option.map_some, Option.bind_some]
          rw [← List.map_append, splitFirst?_map (relabel leaf) id literals]
          cases splitFirst? literalValue? (before ++ after) with
          | none => rfl
          | some split =>
              obtain ⟨front, value, back⟩ := split
              simp only [Option.map_some, Option.bind_some, id]
              have mapped :
                  front.map (relabel leaf) ++ ofRat (-value) :: back.map (relabel leaf) =
                    (front ++ ofRat (-value) :: back).map (relabel leaf) := by
                rw [List.map_append, List.map_cons, relabel_ofRat]
              rw [mapped]
              generalize front ++ ofRat (-value) :: back = remaining
              cases remaining with
              | nil => rfl
              | cons first rest =>
                  cases rest with
                  | nil => rfl
                  | cons second rest =>
                      exact congrArg some
                        (relabel_ofValue keeps .mul (first :: second :: rest) x.value).symm

end Formula

namespace Rule

open Formula

variable {leaf : String → Rat → Formula}

/-- A rule does the same to a relabelled formula as to the formula itself. -/
theorem apply_relabel
    (keeps : KeepsValues leaf)
    {rule : Rule}
    (unread : rule = .signCollapse → ∀ name value, (leaf name value).literalValue? = none)
    (x : Formula) :
    rule.apply (relabel leaf x) = (rule.apply x).map (relabel leaf) := by
  have zero := isZero_relabel keeps
  have one := isOne_relabel keeps
  cases rule with
  | additiveIdentity => exact dropIdentities?_relabel keeps zero x
  | multiplicativeIdentity => exact dropIdentities?_relabel keeps one x
  | productAbsorbsFraction => exact absorbFraction?_relabel keeps x
  | signCollapse => exact foldSign?_relabel keeps (unread rfl) x
  | multiplicativeCollapse =>
      rw [apply, apply, operandsOf?_relabel keeps]
      cases x.operandsOf? .mul with
      | none => rfl
      | some factors =>
          have same : (factors.map (relabel leaf)).any isZero = factors.any isZero := by
            rw [List.any_map]
            exact congrArg (List.any factors) (funext zero)
          simp only [Option.map_some, Option.bind_eq_bind, Option.bind_some, same]
          split <;> rfl
  | subtractiveIdentity =>
      refine pairOf?_bind_relabel keeps .sub (fun left right => ?_) x
      dsimp only
      rw [zero]
      cases right.isZero <;> rfl
  | subtractionFromZero =>
      refine pairOf?_bind_relabel keeps .sub (fun left right => ?_) x
      dsimp only
      rw [zero, ← relabel_ofRat leaf, ← relabel_mul keeps]
      cases left.isZero <;> rfl
  | divisionIdentity =>
      refine pairOf?_bind_relabel keeps .div (fun numerator denominator => ?_) x
      dsimp only
      rw [one]
      cases denominator.isOne <;> rfl
  | divisionCollapse =>
      refine pairOf?_bind_relabel keeps .div (fun numerator denominator => ?_) x
      dsimp only
      rw [zero]
      cases numerator.isZero <;> rfl
  | denominatorIsFraction =>
      refine pairOf?_bind_relabel keeps .div (fun numerator denominator => ?_) x
      dsimp only
      refine pairOf?_bind_relabel keeps .div (fun above below => ?_) denominator
      dsimp only
      rw [← relabel_mul keeps, div_relabel keeps, toOption_map]
  | numeratorIsFraction =>
      refine pairOf?_bind_relabel keeps .div (fun numerator denominator => ?_) x
      dsimp only
      refine pairOf?_bind_relabel keeps .div (fun above below => ?_) numerator
      dsimp only
      rw [← relabel_mul keeps, div_relabel keeps, toOption_map]
  | powerIdentity =>
      refine pairOf?_bind_relabel keeps .pow (fun base exponent => ?_) x
      dsimp only
      rw [one]
      cases exponent.isOne <;> rfl
  | powerCollapse =>
      refine pairOf?_bind_relabel keeps .pow (fun base exponent => ?_) x
      dsimp only
      rw [zero, zero, one]
      cases exponent.isZero <;> cases base.isZero <;> cases base.isOne <;> rfl

end Rule

namespace Formula

variable {leaf : String → Rat → Formula} {rule : Formula → Option Formula}

mutual

/-- The first match of a relabelled formula is that of the formula. -/
theorem rewriteFirst?_relabel
    (keeps : KeepsValues leaf)
    (commutes : ∀ x, rule (relabel leaf x) = (rule x).map (relabel leaf)) :
    ∀ x : Formula,
      rewriteFirst? rule (relabel leaf x) = (rewriteFirst? rule x).map (relabel leaf)
  | literal id value => commutes (literal id value)
  | constant id name value => by
      have matched := commutes (constant id name value)
      rw [relabel_constant] at matched ⊢
      obtain ⟨own, same⟩ | ⟨own, shown, same⟩ := keeps.leaf_cases name value <;>
        rw [same] at matched ⊢ <;> exact matched
  | output id name inner => by
      rw [relabel_output, labelled, rewriteFirst?, rewriteFirst?,
        rewriteFirst?_relabel keeps commutes inner, Option.map_map, Option.map_map]
      rfl
  | derived id op operands value => by
      have matched := commutes (derived id op operands value)
      rw [relabel_derived] at matched ⊢
      rw [rewriteFirst?, rewriteFirst?, matched]
      cases rule (derived id op operands value) with
      | some replacement => rfl
      | none =>
          simp only [Option.map_none]
          rw [rewriteFirstOf?_relabel keeps commutes operands, Option.map_map, Option.map_map]
          congr 1
          funext rebuilt
          exact (relabel_ofValue keeps op rebuilt value).symm

theorem rewriteFirstOf?_relabel
    (keeps : KeepsValues leaf)
    (commutes : ∀ x, rule (relabel leaf x) = (rule x).map (relabel leaf)) :
    ∀ operands : List Formula,
      rewriteFirstOf? rule (operands.map (relabel leaf)) =
        (rewriteFirstOf? rule operands).map (List.map (relabel leaf))
  | [] => rfl
  | x :: rest => by
      rw [List.map_cons, rewriteFirstOf?, rewriteFirstOf?,
        rewriteFirst?_relabel keeps commutes x, rewriteFirstOf?_relabel keeps commutes rest]
      cases rewriteFirst? rule x with
      | some replacement => rfl
      | none => cases rewriteFirstOf? rule rest <;> rfl

end

end Formula

/-! ## Shapes -/

open Formula

/-- A rule does the same to formulas of one shape. -/
theorem Rule.apply_shape (rule : Rule) (x : Formula) :
    rule.apply x.shape = (rule.apply x).map shape :=
  Rule.apply_relabel keepsValues_named (fun _ _ _ => rfl) x

/-- The first match of a rule does not depend on identities. -/
theorem Formula.rewriteFirst?_shape (rule : Rule) (x : Formula) :
    x.shape.rewriteFirst? rule.apply = (x.rewriteFirst? rule.apply).map shape :=
  rewriteFirst?_relabel keepsValues_named rule.apply_shape x

end ExactFormula
