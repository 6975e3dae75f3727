import ExactFormula.Proofs.Formula.Relabelling

/-!
# Nodes of a formula

What holds of every node of a formula is said with `Occurs`.  Building a node on
operands adds that node and no other, and a chain that is spliced into it only
loses its root.
-/

namespace ExactFormula
namespace Formula

/-- A node is the formula or stands somewhere in it; outputs are entered too. -/
inductive Occurs (node : Formula) : Formula → Prop
  | root : Occurs node node
  | inner
      {id : Option NodeId}
      {name : String}
      {x : Formula} :
      Occurs node x → Occurs node (output id name x)
  | operand
      {id : Option NodeId}
      {op : Operator}
      {operands : List Formula}
      {value : Rat}
      {x : Formula} :
      x ∈ operands → Occurs node x → Occurs node (derived id op operands value)

/-- Something holds of every node of a formula. -/
def Everywhere (property : Formula → Prop) (x : Formula) : Prop :=
  ∀ node, Occurs node x → property node

variable {property : Formula → Prop}

theorem Everywhere.here {x : Formula} (everywhere : Everywhere property x) : property x :=
  everywhere x .root

/-- A node of a node of a formula is a node of the formula. -/
theorem Occurs.trans
    {first second x : Formula}
    (inside : Occurs first second)
    (occurs : Occurs second x) :
    Occurs first x := by
  induction occurs with
  | root => exact inside
  | inner _ inductionHypothesis => exact .inner inductionHypothesis
  | operand member _ inductionHypothesis => exact .operand member inductionHypothesis

theorem Occurs.of_mem_operands {node x : Formula} (member : node ∈ x.operands) : Occurs node x := by
  cases x with
  | derived id op operands value => exact .operand member .root
  | literal id value => cases member
  | constant id name value => cases member
  | output id name inner => cases member

theorem Occurs.of_inner?_eq_some {node x : Formula} (found : x.inner? = some node) :
    Occurs node x := by
  cases x with
  | output id name inner => exact Option.some.inj found ▸ .inner .root
  | literal id value => cases found
  | constant id name value => cases found
  | derived id op operands value => cases found

/-- What holds everywhere in a formula holds everywhere in its nodes. -/
theorem Everywhere.of_occurs
    {node x : Formula}
    (everywhere : Everywhere property x)
    (occurs : Occurs node x) :
    Everywhere property node := by
  intro deeper inside
  exact everywhere deeper (inside.trans occurs)

theorem everywhere_literal {id : Option NodeId} {value : Rat} :
    Everywhere property (literal id value) ↔ property (literal id value) := by
  refine ⟨Everywhere.here, ?_⟩
  intro holds node occurs
  cases occurs
  exact holds

theorem everywhere_constant {id : Option NodeId} {name : String} {value : Rat} :
    Everywhere property (constant id name value) ↔ property (constant id name value) := by
  refine ⟨Everywhere.here, ?_⟩
  intro holds node occurs
  cases occurs
  exact holds

/-- To hold everywhere in an output is to hold of it and everywhere in what it wraps. -/
theorem everywhere_output {id : Option NodeId} {name : String} {x : Formula} :
    Everywhere property (output id name x) ↔
      property (output id name x) ∧ Everywhere property x := by
  constructor
  · intro everywhere
    exact ⟨everywhere.here, fun node occurs => everywhere node (.inner occurs)⟩
  · rintro ⟨holds, inside⟩ node occurs
    cases occurs with
    | root => exact holds
    | inner occurs => exact inside node occurs

/-- To hold everywhere in a node is to hold of it and everywhere in its operands. -/
theorem everywhere_derived
    {id : Option NodeId}
    {op : Operator}
    {operands : List Formula}
    {value : Rat} :
    Everywhere property (derived id op operands value) ↔
      property (derived id op operands value) ∧ ∀ x ∈ operands, Everywhere property x := by
  constructor
  · intro everywhere
    exact ⟨everywhere.here, fun x member node occurs => everywhere node (.operand member occurs)⟩
  · rintro ⟨holds, inside⟩ node occurs
    cases occurs with
    | root => exact holds
    | operand member occurs => exact inside _ member node occurs

/-- What stands in a spliced operand list stands in one of the operands. -/
theorem everywhere_of_mem_splice
    {op : Operator}
    {operands : List Formula}
    (inside : ∀ x ∈ operands, Everywhere property x)
    {x : Formula}
    (member : x ∈ splice op operands) :
    Everywhere property x := by
  unfold splice at member
  split at member
  · obtain ⟨operand, present, contributed⟩ := List.mem_flatMap.mp member
    have holds := inside operand present
    cases operand with
    | derived id child operands value =>
        rw [spliced] at contributed
        split at contributed
        · exact (everywhere_derived.mp holds).2 x contributed
        · rw [List.mem_singleton.mp contributed]
          exact holds
    | literal id value =>
        rw [List.mem_singleton.mp contributed]
        exact holds
    | constant id name value =>
        rw [List.mem_singleton.mp contributed]
        exact holds
    | output id name inner =>
        rw [List.mem_singleton.mp contributed]
        exact holds
  · exact inside x member

/-- What holds of a node that is built, and everywhere in its operands, holds everywhere in it. -/
theorem everywhere_ofValue
    {op : Operator}
    {operands : List Formula}
    {value : Rat}
    (holds : property (ofValue op operands value))
    (inside : ∀ x ∈ operands, Everywhere property x) :
    Everywhere property (ofValue op operands value) :=
  everywhere_derived.mpr ⟨holds, fun _ member => everywhere_of_mem_splice inside member⟩

/-- What holds everywhere in a binary node holds everywhere in both of its operands. -/
theorem Everywhere.of_pairOf?
    {x : Formula}
    (everywhere : Everywhere property x)
    {op : Operator}
    {left right : Formula}
    (found : x.pairOf? op = some (left, right)) :
    Everywhere property left ∧ Everywhere property right := by
  obtain ⟨id, value, rfl⟩ := pairOf?_eq_some found
  have inside := (everywhere_derived.mp everywhere).2
  exact ⟨inside left (by simp), inside right (by simp)⟩

/-! ## Relabelling -/

/-- Every node of a relabelled formula is a relabelled node of the formula. -/
theorem Occurs.of_relabel
    {leaf : String → Rat → Formula}
    (keeps : KeepsValues leaf)
    {node x : Formula}
    (occurs : Occurs node (relabel leaf x)) :
    ∃ origin, Occurs origin x ∧ relabel leaf origin = node := by
  generalize same : relabel leaf x = image at occurs
  induction occurs generalizing x with
  | root => exact ⟨x, .root, same⟩
  | @inner id name y occurs inductionHypothesis =>
      cases x with
      | literal own value => simp [ofRat] at same
      | constant own shown value =>
          obtain ⟨_, isLeaf⟩ | ⟨_, _, isLeaf⟩ := keeps.leaf_cases shown value <;>
            simp [isLeaf] at same
      | derived own op operands value => simp at same
      | output own shown inside =>
          rw [relabel_output, labelled, output.injEq] at same
          obtain ⟨origin, stands, image⟩ := inductionHypothesis same.2.2
          exact ⟨origin, .inner stands, image⟩
  | @operand id op operands value y member occurs inductionHypothesis =>
      cases x with
      | literal own value => simp [ofRat] at same
      | constant own shown value =>
          obtain ⟨_, isLeaf⟩ | ⟨_, _, isLeaf⟩ := keeps.leaf_cases shown value <;>
            simp [isLeaf] at same
      | output own shown inside => simp [labelled] at same
      | derived own op held value =>
          rw [relabel_derived, derived.injEq] at same
          obtain ⟨_, _, rfl, _⟩ := same
          obtain ⟨operand, present, rfl⟩ := List.mem_map.mp member
          obtain ⟨origin, stands, image⟩ := inductionHypothesis rfl
          exact ⟨origin, .operand present stands, image⟩

/-- The nodes of a formula, relabelled, are nodes of the relabelled formula. -/
theorem Occurs.relabel
    (leaf : String → Rat → Formula)
    {node x : Formula}
    (occurs : Occurs node x) :
    Occurs (relabel leaf node) (relabel leaf x) := by
  induction occurs with
  | root => exact .root
  | inner _ inductionHypothesis => exact .inner inductionHypothesis
  | operand member _ inductionHypothesis =>
      rw [relabel_derived]
      exact .operand (List.mem_map_of_mem member) inductionHypothesis

/-- What the shape of a node decides holds in formulas of one shape alike. -/
theorem everywhere_shape_iff
    (decided : ∀ node, property node.shape ↔ property node)
    {x : Formula} :
    Everywhere property x.shape ↔ Everywhere property x := by
  constructor
  · intro everywhere node occurs
    exact (decided node).mp (everywhere node.shape (occurs.relabel named))
  · intro everywhere node occurs
    obtain ⟨origin, stands, rfl⟩ := Occurs.of_relabel keepsValues_named occurs
    exact (decided origin).mpr (everywhere origin stands)

end Formula
end ExactFormula
