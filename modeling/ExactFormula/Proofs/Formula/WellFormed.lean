import ExactFormula.Proofs.Formula.Coherence

/-!
# Well-formed formulas

A formula is well formed when every operator in it has as many operands as it
takes, and no chain stands directly in a chain of its own kind.  Splicing takes
away one level of nesting.  That is enough, because operands that are well formed
have no second level.
-/

namespace ExactFormula
namespace Formula

/--
A node has as many operands as its operator takes, and none of the operands of a
chain is a chain of the same kind.
-/
def Fits : Formula → Prop
  | derived _ op operands _ =>
      op.arity.accepts operands.length = true ∧
        (op.isAssociative = true → ∀ x ∈ operands, x.op? ≠ some op)
  | _ => True

/-- Every node has the operands that its operator asks for. -/
def WellFormed (x : Formula) : Prop :=
  Everywhere Fits x

theorem wellFormed_literal (id : Option NodeId) (value : Rat) : WellFormed (literal id value) :=
  everywhere_literal.mpr trivial

theorem wellFormed_constant (id : Option NodeId) (name : String) (value : Rat) :
    WellFormed (constant id name value) :=
  everywhere_constant.mpr trivial

/-- An output is well formed when what it wraps is. -/
theorem wellFormed_output_iff {id : Option NodeId} {name : String} {x : Formula} :
    WellFormed (output id name x) ↔ WellFormed x :=
  everywhere_output.trans ⟨And.right, fun inside => ⟨trivial, inside⟩⟩

/-- A node is well formed when it fits its operator and its operands are well formed. -/
theorem wellFormed_derived_iff
    {id : Option NodeId}
    {op : Operator}
    {operands : List Formula}
    {value : Rat} :
    WellFormed (derived id op operands value) ↔
      (op.arity.accepts operands.length = true ∧
        (op.isAssociative = true → ∀ x ∈ operands, x.op? ≠ some op)) ∧
      ∀ x ∈ operands, WellFormed x :=
  everywhere_derived

/-- Relabelling keeps the operator of a formula. -/
theorem op?_relabel
    {leaf : String → Rat → Formula}
    (keeps : KeepsValues leaf)
    (x : Formula) :
    (relabel leaf x).op? = x.op? := by
  cases x with
  | constant id name value =>
      obtain ⟨own, same⟩ | ⟨own, shown, same⟩ := keeps.leaf_cases name value <;>
        rw [relabel_constant, same] <;> rfl
  | derived id op operands value => rw [relabel_derived, op?, op?]
  | _ => rfl

/-- A formula is as well formed as its shape. -/
theorem wellFormed_shape_iff {x : Formula} : WellFormed x.shape ↔ WellFormed x := by
  apply everywhere_shape_iff
  intro node
  cases node with
  | derived id op operands value =>
      rw [shape, relabel_derived, Fits, Fits, List.length_map, List.forall_mem_map]
      simp only [op?_relabel keepsValues_named]
  | _ => exact Iff.rfl

/-- Well-formedness does not depend on identities. -/
theorem wellFormed_of_shape_eq
    {x y : Formula}
    (same : x.shape = y.shape)
    (wellFormed : WellFormed y) :
    WellFormed x := by
  rw [← wellFormed_shape_iff, same, wellFormed_shape_iff]
  exact wellFormed

/-! ## Splicing -/

section Splicing

variable {op : Operator} (associative : op.isAssociative = true)

include associative

/-- A well-formed operand contributes something to a chain, and no further chain of the kind. -/
theorem WellFormed.spliced {x : Formula} (wellFormed : WellFormed x) :
    1 ≤ (spliced op x).length ∧ ∀ y ∈ Formula.spliced op x, y.op? ≠ some op := by
  cases x with
  | derived id child operands value =>
      by_cases same : child = op
      · subst same
        obtain ⟨⟨accepted, flat⟩, _⟩ := wellFormed_derived_iff.mp wellFormed
        have long := (Operator.accepts_iff_two_le associative).mp accepted
        rw [Formula.spliced, if_pos rfl]
        exact ⟨by omega, flat associative⟩
      · simp [Formula.spliced, same, op?]
  | _ => simp [Formula.spliced, op?]

/-- Well-formed operands are flattened to no fewer of them, and to no chain of the same kind. -/
theorem WellFormed.flatMap_spliced
    {operands : List Formula}
    (wellFormed : ∀ x ∈ operands, WellFormed x) :
    operands.length ≤ (operands.flatMap (Formula.spliced op)).length ∧
      ∀ y ∈ operands.flatMap (Formula.spliced op), y.op? ≠ some op := by
  constructor
  · induction operands with
    | nil => exact Nat.le_refl 0
    | cons x rest inductionHypothesis =>
        rw [List.forall_mem_cons] at wellFormed
        have first := (wellFormed.1.spliced associative).1
        have others := inductionHypothesis wellFormed.2
        rw [List.flatMap_cons, List.length_append, List.length_cons]
        omega
  · intro y member
    obtain ⟨x, present, contributed⟩ := List.mem_flatMap.mp member
    exact ((wellFormed x present).spliced associative).2 y contributed

end Splicing

/-- A node is well formed when it is built on as many well-formed operands as its operator takes. -/
theorem wellFormed_ofValue
    {op : Operator}
    {operands : List Formula}
    {value : Rat}
    (accepted : op.arity.accepts operands.length = true)
    (inside : ∀ x ∈ operands, WellFormed x) :
    WellFormed (ofValue op operands value) := by
  refine everywhere_ofValue ?_ inside
  rw [ofValue, Fits, splice]
  by_cases associative : op.isAssociative = true
  · obtain ⟨longer, flat⟩ := WellFormed.flatMap_spliced associative inside
    have long := (Operator.accepts_iff_two_le associative).mp accepted
    rw [if_pos associative]
    exact ⟨(Operator.accepts_iff_two_le associative).mpr (by omega), fun _ => flat⟩
  · rw [if_neg associative]
    exact ⟨accepted, fun chain => absurd chain associative⟩

end Formula
end ExactFormula
