import ExactFormula.Proofs.Formula.Occurrence
import ExactFormula.Proofs.Operator

/-!
# Coherence of stored values

A formula is coherent when every derived node in it stores what its operator
gives at the values of its operands.  Everything that the constructors build is
coherent, because flattening a chain does not change its total.
-/

namespace ExactFormula
namespace Formula

/-- A derived node stores what its operator gives at the values of its operands. -/
def Consistent : Formula → Prop
  | derived _ op operands value => op.apply (operands.map Formula.value) = .ok value
  | _ => True

/-- Every derived node stores what its operator gives at the values of its operands. -/
def Coherent (x : Formula) : Prop :=
  Everywhere Consistent x

/-- A node is coherent when its value is that of its operator on coherent operands. -/
theorem coherent_derived_iff
    {id : Option NodeId}
    {op : Operator}
    {operands : List Formula}
    {value : Rat} :
    Coherent (derived id op operands value) ↔
      op.apply (operands.map Formula.value) = .ok value ∧ ∀ x ∈ operands, Coherent x :=
  everywhere_derived

theorem coherent_output_iff {id : Option NodeId} {name : String} {x : Formula} :
    Coherent (output id name x) ↔ Coherent x :=
  everywhere_output.trans ⟨And.right, fun inside => ⟨trivial, inside⟩⟩

theorem coherent_literal (id : Option NodeId) (value : Rat) : Coherent (literal id value) :=
  everywhere_literal.mpr trivial

theorem coherent_constant (id : Option NodeId) (name : String) (value : Rat) :
    Coherent (constant id name value) :=
  everywhere_constant.mpr trivial

/-- A formula is as coherent as its shape. -/
theorem coherent_shape_iff {x : Formula} : Coherent x.shape ↔ Coherent x := by
  apply everywhere_shape_iff
  intro node
  cases node with
  | derived id op operands value =>
      rw [shape, relabel_derived, Consistent, Consistent, map_value_relabel keepsValues_named]
  | _ => exact Iff.rfl

/-- Coherence does not depend on identities. -/
theorem coherent_of_shape_eq
    {x y : Formula}
    (same : x.shape = y.shape)
    (coherent : Coherent y) :
    Coherent x := by
  rw [← coherent_shape_iff, same, coherent_shape_iff]
  exact coherent

/-- Structurally equal formulas have one value. -/
theorem value_of_shape_eq {x y : Formula} (same : x.shape = y.shape) : x.value = y.value := by
  rw [← value_relabel keepsValues_named x, ← value_relabel keepsValues_named y]
  exact congrArg Formula.value same

/-! ## Flat chains -/

/-- What a coherent operand contributes to a chain totals its value. -/
theorem total_spliced
    {op : Operator}
    (associative : op.isAssociative = true)
    {x : Formula}
    (coherent : Coherent x) :
    op.total ((spliced op x).map Formula.value) = x.value ∧ 1 ≤ (spliced op x).length := by
  have single : op.total ([x].map Formula.value) = x.value := op.join_neutral x.value
  cases x with
  | derived id child operands value =>
      by_cases same : child = op
      · subst same
        obtain ⟨evaluated, _⟩ := coherent_derived_iff.mp coherent
        obtain ⟨long, total⟩ := (Operator.apply_eq_ok_iff associative).mp evaluated
        rw [List.length_map] at long
        rw [spliced, if_pos rfl]
        exact ⟨total, by omega⟩
      · rw [spliced, if_neg same]
        exact ⟨single, Nat.le_refl 1⟩
  | _ => exact ⟨single, Nat.le_refl 1⟩

/-- Flattening a chain of coherent operands changes neither its total nor makes it shorter. -/
theorem total_flatMap_spliced
    {op : Operator}
    (associative : op.isAssociative = true)
    {operands : List Formula}
    (coherent : ∀ x ∈ operands, Coherent x) :
    op.total ((operands.flatMap (spliced op)).map Formula.value) =
        op.total (operands.map Formula.value) ∧
      operands.length ≤ (operands.flatMap (spliced op)).length := by
  induction operands with
  | nil => exact ⟨rfl, Nat.le_refl 0⟩
  | cons x rest inductionHypothesis =>
      obtain ⟨first, positive⟩ := total_spliced associative (coherent x List.mem_cons_self)
      obtain ⟨others, longer⟩ :=
        inductionHypothesis fun y member => coherent y (List.mem_cons_of_mem x member)
      rw [List.flatMap_cons, List.map_append, Operator.total_append, first, others]
      refine ⟨rfl, ?_⟩
      rw [List.length_append, List.length_cons]
      omega

/-- Flattening does not change what an operator gives at coherent operands. -/
theorem apply_splice
    {op : Operator}
    {operands : List Formula}
    {value : Rat}
    (coherent : ∀ x ∈ operands, Coherent x)
    (evaluated : op.apply (operands.map Formula.value) = .ok value) :
    op.apply ((splice op operands).map Formula.value) = .ok value := by
  unfold splice
  split
  · rename_i associative
    obtain ⟨long, total⟩ := (Operator.apply_eq_ok_iff associative).mp evaluated
    obtain ⟨same, longer⟩ := total_flatMap_spliced associative coherent
    rw [List.length_map] at long
    rw [Operator.apply_eq_ok_iff associative, List.length_map, same]
    exact ⟨by omega, total⟩
  · exact evaluated

/-- A node that is built with the value of its operator on coherent operands is coherent. -/
theorem coherent_ofValue
    {op : Operator}
    {operands : List Formula}
    {value : Rat}
    (coherent : ∀ x ∈ operands, Coherent x)
    (evaluated : op.apply (operands.map Formula.value) = .ok value) :
    Coherent (ofValue op operands value) :=
  everywhere_ofValue (apply_splice coherent evaluated) coherent

/-! ## Building -/

theorem coherent_add {x y : Formula} (left : Coherent x) (right : Coherent y) :
    Coherent (add x y) :=
  coherent_ofValue (by simp [left, right]) rfl

theorem coherent_sub {x y : Formula} (left : Coherent x) (right : Coherent y) :
    Coherent (sub x y) :=
  coherent_ofValue (by simp [left, right]) rfl

theorem coherent_mul {x y : Formula} (left : Coherent x) (right : Coherent y) :
    Coherent (mul x y) :=
  coherent_ofValue (by simp [left, right]) rfl

theorem coherent_floor {x : Formula} (coherent : Coherent x) : Coherent (floor x) :=
  coherent_ofValue (by simp [coherent]) rfl

/-- A quotient is built when the divisor is not zero, and it stores the quotient of the values. -/
theorem div_eq_ok_iff {x y quotient : Formula} :
    div x y = .ok quotient ↔
      y.value ≠ 0 ∧ ofValue .div [x, y] (x.value / y.value) = quotient := by
  rw [div, Number.divide]
  by_cases zero : y.value = 0
  · simp [zero, bind, Except.bind]
  · simp [zero, bind, Except.bind, pure, Except.pure]

/-- A quotient of coherent formulas is coherent. -/
theorem coherent_of_div_eq_ok
    {x y quotient : Formula}
    (left : Coherent x)
    (right : Coherent y)
    (built : div x y = .ok quotient) :
    Coherent quotient := by
  obtain ⟨nonzero, rfl⟩ := div_eq_ok_iff.mp built
  exact coherent_ofValue (by simp [left, right])
    (Operator.apply_div_eq_ok_iff.mpr ⟨nonzero, rfl⟩)

/-- A power is built when the values have one, and it stores that. -/
theorem pow_eq_ok_iff {x y power : Formula} :
    pow x y = .ok power ↔
      ∃ value, Number.power x.value y.value = .ok value ∧ ofValue .pow [x, y] value = power := by
  rw [pow]
  cases Number.power x.value y.value with
  | error cause => simp [bind, Except.bind]
  | ok value => simp [bind, Except.bind, pure, Except.pure]

/-- A power of coherent formulas is coherent. -/
theorem coherent_of_pow_eq_ok
    {x y power : Formula}
    (left : Coherent x)
    (right : Coherent y)
    (built : pow x y = .ok power) :
    Coherent power := by
  obtain ⟨value, evaluated, rfl⟩ := pow_eq_ok_iff.mp built
  exact coherent_ofValue (by simp [left, right]) (Operator.apply_pow_eq_ok_iff.mpr evaluated)

/-- Every combinator leads from coherent formulas to a coherent one. -/
theorem coherent_of_combine_eq_ok
    {op : BinaryOperator}
    {x y result : Formula}
    (left : Coherent x)
    (right : Coherent y)
    (built : x.combine op y = .ok result) :
    Coherent result := by
  cases op with
  | add =>
      rw [combine, Except.ok.injEq] at built
      exact built ▸ coherent_add left right
  | sub =>
      rw [combine, Except.ok.injEq] at built
      exact built ▸ coherent_sub left right
  | mul =>
      rw [combine, Except.ok.injEq] at built
      exact built ▸ coherent_mul left right
  | div => exact coherent_of_div_eq_ok left right built
  | pow => exact coherent_of_pow_eq_ok left right built

/-- An operator is applied when it has a value at those of the operands, and stores that. -/
theorem derive_eq_ok_iff {op : Operator} {operands : List Formula} {result : Formula} :
    derive op operands = .ok result ↔
      ∃ value, op.apply (operands.map Formula.value) = .ok value ∧
        ofValue op operands value = result := by
  rw [derive]
  cases op.apply (operands.map Formula.value) with
  | error cause => simp [bind, Except.bind]
  | ok value => simp [bind, Except.bind, pure, Except.pure]

/-- An operator that is applied to coherent operands gives a coherent formula. -/
theorem coherent_of_derive_eq_ok
    {op : Operator}
    {operands : List Formula}
    {result : Formula}
    (coherent : ∀ x ∈ operands, Coherent x)
    (built : derive op operands = .ok result) :
    Coherent result := by
  obtain ⟨value, evaluated, rfl⟩ := derive_eq_ok_iff.mp built
  exact coherent_ofValue coherent evaluated

/-- A chain that is joined from the left keeps what its links and every joint have. -/
theorem foldl_induction
    {motive : Formula → Prop}
    {join : Formula → Formula → Formula}
    (joined : ∀ x y, motive x → motive y → motive (join x y))
    {first : Formula}
    {rest : List Formula}
    (links : ∀ x ∈ first :: rest, motive x) :
    motive (rest.foldl join first) := by
  induction rest generalizing first with
  | nil => exact links first (by simp)
  | cons y rest inductionHypothesis =>
      rw [List.foldl_cons]
      apply inductionHypothesis
      intro x member
      obtain rfl | later := List.mem_cons.mp member
      · exact joined first y (links first (by simp)) (links y (by simp))
      · exact links x (by simp [later])

/-- A sum of coherent operands is coherent. -/
theorem coherent_sum {operands : List Formula} (coherent : ∀ x ∈ operands, Coherent x) :
    Coherent (sum operands) := by
  cases operands with
  | nil => exact coherent_literal none 0
  | cons first rest => exact foldl_induction (fun _ _ => coherent_add) coherent

theorem coherent_product {factors : List Formula} (coherent : ∀ x ∈ factors, Coherent x) :
    Coherent (product factors) := by
  cases factors with
  | nil => exact coherent_literal none 1
  | cons first rest => exact foldl_induction (fun _ _ => coherent_mul) coherent

/-- What the constructors build, before and after it has been entered into a store. -/
inductive Built : Formula → Prop
  | literal (value : Rat) : Built (ofRat value)
  | constant (name : String) (value : Rat) : Built (named name value)
  | output (name : String) {x : Formula} : Built x → Built (labelled name x)
  | derive
      {op : Operator}
      {operands : List Formula}
      {x : Formula} :
      (∀ operand ∈ operands, Built operand) → derive op operands = .ok x → Built x
  | combine
      {op : BinaryOperator}
      {x y z : Formula} :
      Built x → Built y → x.combine op y = .ok z → Built z
  | floor {x : Formula} : Built x → Built x.floor
  | sum {operands : List Formula} : (∀ x ∈ operands, Built x) → Built (sum operands)
  | product {factors : List Formula} : (∀ x ∈ factors, Built x) → Built (product factors)
  | enter
      {x : Formula}
      (held : List Formula)
      (store : Store) :
      Built x → Built (store.enter held x).1

/-- What the constructors build stores the right values. -/
theorem Built.coherent {x : Formula} (built : Built x) : Coherent x := by
  induction built with
  | literal value => exact coherent_literal none value
  | constant name value => exact coherent_constant none name value
  | output name _ inner => exact coherent_output_iff.mpr inner
  | derive _ evaluated operands => exact coherent_of_derive_eq_ok operands evaluated
  | combine _ _ evaluated left right => exact coherent_of_combine_eq_ok left right evaluated
  | floor _ operand => exact coherent_floor operand
  | sum _ operands => exact coherent_sum operands
  | product _ factors => exact coherent_product factors
  | enter held store _ coherent =>
      exact coherent_of_shape_eq (Store.shape_enter held _ store) coherent

end Formula
end ExactFormula
