import ExactFormula.Proofs.Rewrite.RuleValue
import ExactFormula.Rewrite.Replacement

/-!
# What a rewrite keeps

A rule builds sums, products, quotients and literals only, so a power in its
result was there before.  What holds at the node that gives way and at its
replacement is carried up through the nodes that are built anew.
-/

namespace ExactFormula
namespace Formula

/-! ## What a rule builds -/

/--
Something that a node passes on to its operands, and that holds again of what is
built on such operands, powers apart.  No rule builds a power.
-/
structure Hereditary (motive : Formula → Prop) : Prop where
  /-- It holds of every literal. -/
  literal : ∀ value, motive (ofRat value)
  /-- A node passes it on to its operands. -/
  operand : ∀ {id op operands value}, motive (derived id op operands value) →
    ∀ x ∈ operands, motive x
  /-- It holds of what is built on operands of which it holds. -/
  build : ∀ {op operands value}, op ≠ .pow → op.arity.accepts operands.length = true →
    (∀ x ∈ operands, motive x) → motive (ofValue op operands value)

namespace Hereditary

variable {motive : Formula → Prop} (hereditary : Hereditary motive) {x y quotient : Formula}

include hereditary

/-- What is hereditary holds of the operands that a rule takes out of a node. -/
theorem of_operandsOf?
    (holds : motive x)
    {op : Operator}
    {operands : List Formula}
    (found : x.operandsOf? op = some operands) :
    ∀ operand ∈ operands, motive operand := by
  obtain ⟨_, id, value, rfl⟩ := operandsOf?_eq_some found
  exact hereditary.operand holds

/-- What is hereditary holds of both sides that a rule takes out of a node. -/
theorem of_pairOf?
    (holds : motive x)
    {op : Operator}
    {left right : Formula}
    (found : x.pairOf? op = some (left, right)) :
    motive left ∧ motive right := by
  obtain ⟨id, value, rfl⟩ := pairOf?_eq_some found
  have inside := hereditary.operand holds
  exact ⟨inside left (by simp), inside right (by simp)⟩

theorem mul (left : motive x) (right : motive y) : motive (Formula.mul x y) :=
  hereditary.build (by decide) rfl (by simp [left, right])

theorem of_div_eq_ok
    (left : motive x)
    (right : motive y)
    (built : div x y = .ok quotient) :
    motive quotient := by
  obtain ⟨_, rfl⟩ := div_eq_ok_iff.mp built
  exact hereditary.build (by decide) rfl (by simp [left, right])

theorem product {factors : List Formula} (inside : ∀ x ∈ factors, motive x) :
    motive (Formula.product factors) := by
  cases factors with
  | nil => exact hereditary.literal 1
  | cons first rest => exact foldl_induction (fun _ _ => hereditary.mul) inside

/-- A rule finds its operands in the formula, and of its own it adds no power. -/
theorem of_effect {rule : Rule} (effect : rule.Effect x y) (holds : motive x) : motive y := by
  cases effect with
  | identities => exact hereditary.literal x.value
  | remainder _ found remaining =>
      have member := List.mem_of_mem_filter (remaining.symm ▸ List.mem_singleton_self y)
      exact hereditary.of_operandsOf? holds found y member
  | remainders identity found _ long =>
      refine hereditary.build (by cases identity <;> decide) ?_ ?_
      · exact (Operator.accepts_iff_two_le identity.isAssociative).mpr long
      · intro operand member
        exact hereditary.of_operandsOf? holds found operand (List.mem_of_mem_filter member)
  | subtractedZero found => exact (hereditary.of_pairOf? holds found).1
  | subtractedFromZero found =>
      exact hereditary.mul (hereditary.literal (-1)) (hereditary.of_pairOf? holds found).2
  | zeroFactor => exact hereditary.literal 0
  | @absorbed _ quotient _ _ _ _ _ found isFraction built =>
      have inside := hereditary.of_operandsOf? holds found
      obtain ⟨above, below⟩ := hereditary.of_pairOf? (inside quotient (by simp)) isFraction
      exact hereditary.of_div_eq_ok (hereditary.product (forall_mem_absorbed inside above)) below
        built
  | folded => exact hereditary.literal _
  | @moved _ _ _ _ _ _ _ number found _ others _ long =>
      have inside := hereditary.of_operandsOf? holds found
      exact hereditary.build (by decide) ((Operator.accepts_iff_two_le rfl).mpr long)
        (forall_mem_moved inside others (hereditary.literal (-number)))
  | dividedByOne found => exact (hereditary.of_pairOf? holds found).1
  | dividedZero => exact hereditary.literal 0
  | dividedByFraction found divisor built =>
      obtain ⟨left, right⟩ := hereditary.of_pairOf? holds found
      obtain ⟨top, bottom⟩ := hereditary.of_pairOf? right divisor
      exact hereditary.of_div_eq_ok (hereditary.mul left bottom) top built
  | dividedFraction found dividend built =>
      obtain ⟨left, right⟩ := hereditary.of_pairOf? holds found
      obtain ⟨top, bottom⟩ := hereditary.of_pairOf? left dividend
      exact hereditary.of_div_eq_ok top (hereditary.mul bottom right) built
  | exponentOne found => exact (hereditary.of_pairOf? holds found).1
  | exponentZero => exact hereditary.literal 1
  | baseZero => exact hereditary.literal 0
  | baseOne => exact hereditary.literal 1

end Hereditary

/-- What holds of literals and of all nodes but powers is hereditary when it holds everywhere. -/
theorem hereditary_everywhere
    {property : Formula → Prop}
    (literals : ∀ value, property (ofRat value))
    (nodes : ∀ op operands value, op ≠ .pow → property (derived none op operands value)) :
    Hereditary (Everywhere property) where
  literal value := everywhere_literal.mpr (literals value)
  operand everywhere := (everywhere_derived.mp everywhere).2
  build notPower _ inside := everywhere_ofValue (nodes _ _ _ notPower) inside

/-! ## From a node up to the root -/

variable {node replacement x y : Formula}

/-- The node that is replaced is a node of the formula. -/
theorem Replaces.occurs (replaces : Replaces node replacement x y) : Occurs node x := by
  induction replaces with
  | root => exact .root
  | inner _ inductionHypothesis => exact .inner inductionHypothesis
  | operand _ inductionHypothesis => exact .operand (by simp) inductionHypothesis

/-- The first node that a rule matches is a node of the formula. -/
theorem occurs_of_redex?
    {rule : Formula → Option Formula}
    (rewritten : x.rewriteFirst? rule = some y)
    (first : x.redex? rule = some node) :
    Occurs node x := by
  obtain ⟨found, replacement, first', _, replaces⟩ := replaces_of_rewriteFirst? x rewritten
  rw [first, Option.some.injEq] at first'
  exact first' ▸ replaces.occurs

/-- Nothing is rewritten in an operand list exactly when nothing is in any operand. -/
theorem rewriteFirstOf?_eq_none_iff
    {rule : Formula → Option Formula}
    {operands : List Formula} :
    rewriteFirstOf? rule operands = none ↔ ∀ x ∈ operands, rewriteFirst? rule x = none := by
  induction operands with
  | nil => simp [rewriteFirstOf?]
  | cons x rest inductionHypothesis =>
      unfold rewriteFirstOf?
      rw [List.forall_mem_cons, ← inductionHypothesis]
      cases rewriteFirst? rule x with
      | some y => simp
      | none => simp

/-- Where a rule matches nowhere in a formula, it matches nowhere in a part of it. -/
theorem rewriteFirst?_eq_none_of_occurs
    {rule : Formula → Option Formula}
    {node x : Formula}
    (occurs : Occurs node x)
    (quiet : x.rewriteFirst? rule = none) :
    node.rewriteFirst? rule = none := by
  induction occurs with
  | root => exact quiet
  | inner _ inductionHypothesis =>
      rw [rewriteFirst?, Option.map_eq_none_iff] at quiet
      exact inductionHypothesis quiet
  | @operand id op operands value x member _ inductionHypothesis =>
      unfold rewriteFirst? at quiet
      cases matched : rule (derived id op operands value) with
      | some replacement => simp [matched] at quiet
      | none =>
          simp only [matched, Option.map_eq_none_iff] at quiet
          exact inductionHypothesis (rewriteFirstOf?_eq_none_iff.mp quiet x member)

/-- Ancestors keep their values, so only the root can change its own. -/
theorem Replaces.value
    (replaces : Replaces node replacement x y)
    (same : replacement.value = node.value) :
    y.value = x.value := by
  induction replaces with
  | root => exact same
  | inner _ inductionHypothesis => exact inductionHypothesis
  | operand => rfl

/-- The operands of a node that is built anew have the values that they had. -/
theorem Replaces.map_value
    (replaces : Replaces node replacement x y)
    (same : replacement.value = node.value)
    (before after : List Formula) :
    (before ++ y :: after).map Formula.value = (before ++ x :: after).map Formula.value := by
  rw [List.map_append, List.map_append, List.map_cons, List.map_cons, replaces.value same]

/-- A coherent replacement of the same value leaves the whole coherent. -/
theorem Replaces.coherent
    (replaces : Replaces node replacement x y)
    (same : replacement.value = node.value)
    (kept : Coherent replacement)
    (coherent : Coherent x) :
    Coherent y := by
  induction replaces with
  | root => exact kept
  | inner _ inductionHypothesis =>
      exact coherent_output_iff.mpr (inductionHypothesis (coherent_output_iff.mp coherent))
  | @operand _ op before after value x y replaces inductionHypothesis =>
      obtain ⟨evaluated, inside⟩ := coherent_derived_iff.mp coherent
      refine coherent_ofValue (forall_mem_replaced inside inductionHypothesis) ?_
      rw [replaces.map_value same]
      exact evaluated

/-! ## Powers of zero by zero -/

/-- A power whose base and exponent both have the value zero. -/
def IsZeroPower : Formula → Prop
  | derived _ .pow operands _ => operands.map Formula.value = [0, 0]
  | _ => False

/-- No power in the formula has a base and an exponent of the value zero. -/
def ZeroPowerFree (x : Formula) : Prop :=
  Everywhere (¬IsZeroPower ·) x

theorem zeroPowerFree_literal (id : Option NodeId) (value : Rat) :
    ZeroPowerFree (literal id value) :=
  everywhere_literal.mpr fun zeroPower => zeroPower

theorem zeroPowerFree_sub {x y : Formula} (left : ZeroPowerFree x) (right : ZeroPowerFree y) :
    ZeroPowerFree (sub x y) := by
  have operands : ∀ operand ∈ [x, y], ZeroPowerFree operand := by simp [left, right]
  exact everywhere_ofValue (fun zeroPower => zeroPower) operands

/-- A node is a power of zero by zero when its operator and the values of its operands say so. -/
theorem isZeroPower_derived_iff
    {id : Option NodeId}
    {op : Operator}
    {operands : List Formula}
    {value : Rat} :
    IsZeroPower (derived id op operands value) ↔
      op = .pow ∧ operands.map Formula.value = [0, 0] := by
  cases op <;> simp [IsZeroPower]

/-- Identities have no part in whether a node is a power of zero by zero. -/
theorem isZeroPower_shape_iff (x : Formula) : IsZeroPower x.shape ↔ IsZeroPower x := by
  cases x with
  | derived id op operands value =>
      rw [shape, relabel_derived, isZeroPower_derived_iff, isZeroPower_derived_iff,
        map_value_relabel keepsValues_named]
  | _ => exact Iff.rfl

theorem zeroPowerFree_shape_iff : ZeroPowerFree x.shape ↔ ZeroPowerFree x :=
  everywhere_shape_iff fun node => not_congr (isZeroPower_shape_iff node)

/-- No effect of a rule brings in a power of zero by zero. -/
theorem zeroPowerFree_of_effect
    {rule : Rule}
    (effect : rule.Effect x y)
    (free : ZeroPowerFree x) :
    ZeroPowerFree y := by
  refine (hereditary_everywhere (fun value => id) ?_).of_effect effect free
  intro op operands value notPower isZeroPower
  exact notPower (isZeroPower_derived_iff.mp isZeroPower).1

/-- In a formula without such powers, no rule drops one. -/
theorem ZeroPowerFree.not_dropsZeroPower
    {rule : Rule}
    (free : ZeroPowerFree x) :
    ¬rule.DropsZeroPower x := by
  rintro ⟨_, base, exponent, isPower, baseZero, _, exponentZero⟩
  obtain ⟨id, value, rfl⟩ := pairOf?_eq_some isPower
  refine free.here ?_
  rw [isZeroPower_derived_iff, List.map_cons, List.map_cons, List.map_nil,
    value_of_isZero baseZero, exponentZero]
  exact ⟨rfl, rfl⟩

/-- A replacement of the same value brings a power of zero by zero into no node above it. -/
theorem Replaces.zeroPowerFree
    (replaces : Replaces node replacement x y)
    (same : replacement.value = node.value)
    (kept : ZeroPowerFree replacement)
    (free : ZeroPowerFree x) :
    ZeroPowerFree y := by
  induction replaces with
  | root => exact kept
  | inner _ inductionHypothesis =>
      exact everywhere_output.mpr ⟨id, inductionHypothesis (everywhere_output.mp free).2⟩
  | @operand _ op before after value x y replaces inductionHypothesis =>
      obtain ⟨notZeroPower, inside⟩ := everywhere_derived.mp free
      refine everywhere_ofValue ?_ (forall_mem_replaced inside inductionHypothesis)
      intro isZeroPower
      obtain ⟨rfl, operands⟩ := isZeroPower_derived_iff.mp isZeroPower
      refine notZeroPower (isZeroPower_derived_iff.mpr ⟨rfl, ?_⟩)
      rw [← replaces.map_value same]
      exact operands

end Formula
end ExactFormula
