import ExactFormula.Proofs.Formula.Coherence
import Mathlib.Algebra.Order.Group.Multiset
import Mathlib.Tactic.Abel

/-!
# Gathering from the nodes of a formula

What the constants and the outputs of a formula contribute is gathered with
multiplicities.  Flattening a chain loses none of it, and building on operands
adds nothing.
-/

namespace ExactFormula
namespace Formula

variable {α β : Type}

mutual

/-- Gather what the constants and the outputs of a formula contribute. -/
def gather
    (constantPart : String → Rat → Multiset α)
    (outputPart : String → Formula → Multiset α) :
    Formula → Multiset α
  | literal _ _ => 0
  | constant _ name value => constantPart name value
  | output _ name inner => outputPart name inner + gather constantPart outputPart inner
  | derived _ _ operands _ => gatherAll constantPart outputPart operands

/-- Gather what some formulas contribute. -/
def gatherAll
    (constantPart : String → Rat → Multiset α)
    (outputPart : String → Formula → Multiset α) :
    List Formula → Multiset α
  | [] => 0
  | x :: rest => gather constantPart outputPart x + gatherAll constantPart outputPart rest

end

section

variable {constantPart : String → Rat → Multiset α} {outputPart : String → Formula → Multiset α}

@[simp] theorem gather_literal (id : Option NodeId) (value : Rat) :
    gather constantPart outputPart (literal id value) = 0 := rfl

@[simp] theorem gather_constant (id : Option NodeId) (name : String) (value : Rat) :
    gather constantPart outputPart (constant id name value) = constantPart name value := rfl

@[simp] theorem gather_output (id : Option NodeId) (name : String) (inner : Formula) :
    gather constantPart outputPart (output id name inner) =
      outputPart name inner + gather constantPart outputPart inner := rfl

@[simp] theorem gather_derived
    (id : Option NodeId)
    (op : Operator)
    (operands : List Formula)
    (value : Rat) :
    gather constantPart outputPart (derived id op operands value) =
      gatherAll constantPart outputPart operands := rfl

@[simp] theorem gatherAll_nil : gatherAll constantPart outputPart [] = 0 := rfl

@[simp] theorem gatherAll_cons (x : Formula) (rest : List Formula) :
    gatherAll constantPart outputPart (x :: rest) =
      gather constantPart outputPart x + gatherAll constantPart outputPart rest := rfl

/-- Two operand lists one after the other hold what each of them holds. -/
@[simp] theorem gatherAll_append (front back : List Formula) :
    gatherAll constantPart outputPart (front ++ back) =
      gatherAll constantPart outputPart front + gatherAll constantPart outputPart back := by
  induction front with
  | nil => rw [List.nil_append, gatherAll_nil, zero_add]
  | cons x rest inductionHypothesis =>
      rw [List.cons_append, gatherAll_cons, gatherAll_cons, inductionHypothesis, add_assoc]

/-- A list without some of its operands holds no more than the list. -/
theorem gatherAll_le_of_sublist {few many : List Formula} (sublist : few.Sublist many) :
    gatherAll constantPart outputPart few ≤ gatherAll constantPart outputPart many := by
  induction sublist with
  | slnil => exact le_refl 0
  | cons x _ inductionHypothesis =>
      rw [gatherAll_cons]
      exact inductionHypothesis.trans (Multiset.le_add_left _ _)
  | cons_cons x _ inductionHypothesis =>
      rw [gatherAll_cons, gatherAll_cons]
      exact Multiset.add_le_add_left inductionHypothesis

/-- An operand holds no more than all operands together. -/
theorem gather_le_of_mem {x : Formula} {operands : List Formula} (member : x ∈ operands) :
    gather constantPart outputPart x ≤ gatherAll constantPart outputPart operands := by
  have single : gatherAll constantPart outputPart [x] ≤ gatherAll constantPart outputPart operands :=
    gatherAll_le_of_sublist (List.singleton_sublist.mpr member)
  rw [gatherAll_cons, gatherAll_nil, add_zero] at single
  exact single

/-- An operator node that a rule takes apart holds what its operands hold. -/
theorem gather_of_operandsOf?
    {op : Operator}
    {x : Formula}
    {operands : List Formula}
    (found : x.operandsOf? op = some operands) :
    gather constantPart outputPart x = gatherAll constantPart outputPart operands := by
  obtain ⟨_, id, value, rfl⟩ := operandsOf?_eq_some found
  rfl

/-- A binary node that a rule takes apart holds what its two sides hold. -/
theorem gather_of_pairOf?
    {op : Operator}
    {x left right : Formula}
    (found : x.pairOf? op = some (left, right)) :
    gather constantPart outputPart x =
      gather constantPart outputPart left + gather constantPart outputPart right := by
  obtain ⟨id, value, rfl⟩ := pairOf?_eq_some found
  rw [gather_derived, gatherAll_cons, gatherAll_cons, gatherAll_nil, add_zero]

/-! ## Building -/

/-- A chain holds what its operands hold, so splicing it in loses nothing and adds nothing. -/
theorem gatherAll_spliced (op : Operator) (x : Formula) :
    gatherAll constantPart outputPart (spliced op x) = gather constantPart outputPart x := by
  have single : gatherAll constantPart outputPart [x] = gather constantPart outputPart x := by
    rw [gatherAll_cons, gatherAll_nil, add_zero]
  cases x with
  | derived id child operands value =>
      rw [spliced]
      split
      · rfl
      · exact single
  | _ => exact single

/-- Flattening an operand list keeps what it holds. -/
@[simp] theorem gatherAll_splice (op : Operator) (operands : List Formula) :
    gatherAll constantPart outputPart (splice op operands) =
      gatherAll constantPart outputPart operands := by
  unfold splice
  split
  · induction operands with
    | nil => rfl
    | cons x rest inductionHypothesis =>
        rw [List.flatMap_cons, gatherAll_append, gatherAll_spliced, inductionHypothesis,
          gatherAll_cons]
  · rfl

/-- A node that is built holds what its operands hold. -/
@[simp] theorem gather_ofValue (op : Operator) (operands : List Formula) (value : Rat) :
    gather constantPart outputPart (ofValue op operands value) =
      gatherAll constantPart outputPart operands :=
  gatherAll_splice op operands

@[simp] theorem gather_mul (x y : Formula) :
    gather constantPart outputPart (mul x y) =
      gather constantPart outputPart x + gather constantPart outputPart y := by
  rw [mul, gather_ofValue, gatherAll_cons, gatherAll_cons, gatherAll_nil, add_zero]

/-- A quotient holds what the dividend and the divisor hold. -/
theorem gather_of_div_eq_ok {x y quotient : Formula} (built : div x y = .ok quotient) :
    gather constantPart outputPart quotient =
      gather constantPart outputPart x + gather constantPart outputPart y := by
  obtain ⟨_, rfl⟩ := div_eq_ok_iff.mp built
  rw [gather_ofValue, gatherAll_cons, gatherAll_cons, gatherAll_nil, add_zero]

/-- A product that is built one factor at a time holds what all its factors hold. -/
theorem gather_foldl_mul (rest : List Formula) (first : Formula) :
    gather constantPart outputPart (rest.foldl mul first) =
      gather constantPart outputPart first + gatherAll constantPart outputPart rest := by
  induction rest generalizing first with
  | nil => rw [List.foldl_nil, gatherAll_nil, add_zero]
  | cons x rest inductionHypothesis =>
      rw [List.foldl_cons, inductionHypothesis, gather_mul, gatherAll_cons, add_assoc]

/-- A product holds what its factors hold. -/
@[simp] theorem gather_product (factors : List Formula) :
    gather constantPart outputPart (product factors) =
      gatherAll constantPart outputPart factors := by
  cases factors with
  | nil => rfl
  | cons first rest => exact gather_foldl_mul rest first

end

section

variable {constantPart : String → Rat → Multiset α} {outputPart : String → Multiset α}

mutual

/-- What names contribute does not depend on identities. -/
theorem gather_shape :
    ∀ x : Formula, gather constantPart (fun name _ => outputPart name) x.shape =
      gather constantPart (fun name _ => outputPart name) x
  | literal _ _ => rfl
  | constant _ _ _ => rfl
  | output _ name inner => congrArg (outputPart name + ·) (gather_shape inner)
  | derived _ _ operands _ => gatherAll_shape operands

theorem gatherAll_shape :
    ∀ operands : List Formula,
      gatherAll constantPart (fun name _ => outputPart name) (relabelAll named operands) =
        gatherAll constantPart (fun name _ => outputPart name) operands
  | [] => rfl
  | x :: rest => congrArg₂ (· + ·) (gather_shape x) (gatherAll_shape rest)

end

end

/-! ## Outputs -/

/-- The outputs of a formula, each with its name and what it wraps. -/
def outputs : Formula → Multiset (String × Formula) :=
  gather (fun _ _ => 0) fun name inner => {(name, inner)}

mutual

/-- A function of what outputs wrap may be applied while the outputs are gathered. -/
theorem map_outputs (f : Formula → α) :
    ∀ x : Formula, (outputs x).map (fun wrapped => (wrapped.1, f wrapped.2)) =
      gather (fun _ _ => 0) (fun name inner => {(name, f inner)}) x
  | literal _ _ => rfl
  | constant _ _ _ => rfl
  | output _ name inner => by
      rw [outputs, gather_output, Multiset.map_add, Multiset.map_singleton, gather_output]
      exact congrArg _ (map_outputs f inner)
  | derived _ _ operands _ => map_outputsOf f operands

theorem map_outputsOf (f : Formula → α) :
    ∀ operands : List Formula,
      (gatherAll (fun _ _ => 0) (fun name inner => {(name, inner)}) operands).map
          (fun wrapped => (wrapped.1, f wrapped.2)) =
        gatherAll (fun _ _ => 0) (fun name inner => {(name, f inner)}) operands
  | [] => rfl
  | x :: rest => by
      rw [gatherAll_cons, Multiset.map_add, map_outputsOf f rest, gatherAll_cons]
      exact congrArg (· + _) (map_outputs f x)

end

mutual

/-- The outputs of the shape of a formula are the shapes of its outputs. -/
theorem outputs_shape :
    ∀ x : Formula,
      outputs x.shape = (outputs x).map fun wrapped => (wrapped.1, wrapped.2.shape)
  | literal _ _ => rfl
  | constant _ _ _ => rfl
  | output _ name inner => by
      rw [outputs, gather_output, Multiset.map_add, Multiset.map_singleton]
      exact congrArg _ (outputs_shape inner)
  | derived _ _ operands _ => outputsOf_shape operands

theorem outputsOf_shape :
    ∀ operands : List Formula,
      gatherAll (fun _ _ => 0) (fun name inner => {(name, inner)}) (relabelAll named operands) =
        (gatherAll (fun _ _ => 0) (fun name inner => {(name, inner)}) operands).map
          fun wrapped => (wrapped.1, wrapped.2.shape)
  | [] => rfl
  | x :: rest => by
      rw [relabelAll, gatherAll_cons, gatherAll_cons, Multiset.map_add, outputsOf_shape rest]
      exact congrArg (· + _) (outputs_shape x)

end

mutual

/-- Every output that is gathered is a node of the formula. -/
theorem occurs_of_mem_outputs {name : String} {inner : Formula} :
    ∀ x : Formula, (name, inner) ∈ outputs x → ∃ id, Occurs (output id name inner) x
  | literal _ _, member => absurd member (Multiset.notMem_zero _)
  | constant _ _ _, member => absurd member (Multiset.notMem_zero _)
  | output id _ wrapped, member => by
      rw [outputs, gather_output, Multiset.mem_add, Multiset.mem_singleton, Prod.mk.injEq] at member
      obtain ⟨rfl, rfl⟩ | deeper := member
      · exact ⟨id, .root⟩
      · obtain ⟨found, occurs⟩ := occurs_of_mem_outputs wrapped deeper
        exact ⟨found, .inner occurs⟩
  | derived _ _ operands _, member => by
      obtain ⟨operand, present, found, occurs⟩ := occurs_of_mem_outputsOf operands member
      exact ⟨found, .operand present occurs⟩

/-- Every output that is gathered from operands is a node of one of them. -/
theorem occurs_of_mem_outputsOf {name : String} {inner : Formula} :
    ∀ operands : List Formula,
      (name, inner) ∈ gatherAll (fun _ _ => 0) (fun name inner => {(name, inner)}) operands →
        ∃ x ∈ operands, ∃ id, Occurs (output id name inner) x
  | [], member => absurd member (Multiset.notMem_zero _)
  | x :: rest, member => by
      rw [gatherAll_cons, Multiset.mem_add] at member
      obtain first | later := member
      · obtain ⟨id, occurs⟩ := occurs_of_mem_outputs x first
        exact ⟨x, List.mem_cons_self, id, occurs⟩
      · obtain ⟨y, present, id, occurs⟩ := occurs_of_mem_outputsOf rest later
        exact ⟨y, List.mem_cons_of_mem x present, id, occurs⟩

end

/-- Every output that is a node of the formula is gathered. -/
theorem mem_outputs_of_occurs
    {id : Option NodeId}
    {name : String}
    {inner x : Formula}
    (occurs : Occurs (output id name inner) x) :
    (name, inner) ∈ outputs x := by
  induction occurs with
  | root => exact Multiset.mem_add.mpr (.inl (Multiset.mem_singleton_self _))
  | inner _ inductionHypothesis => exact Multiset.mem_add.mpr (.inr inductionHypothesis)
  | operand member _ inductionHypothesis =>
      exact Multiset.mem_of_le (gather_le_of_mem member) inductionHypothesis

/-- The outputs that are gathered are those that occur. -/
theorem mem_outputs_iff {name : String} {inner x : Formula} :
    (name, inner) ∈ outputs x ↔ ∃ id, Occurs (output id name inner) x := by
  constructor
  · exact occurs_of_mem_outputs x
  · rintro ⟨id, occurs⟩
    exact mem_outputs_of_occurs occurs

end Formula
end ExactFormula
