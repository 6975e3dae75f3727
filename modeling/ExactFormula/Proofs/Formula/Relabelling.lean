import ExactFormula.Rewrite.Weight
import ExactFormula.Store

/-!
# Forgetting identities

A relabelling takes the identities off all nodes of a formula and puts a leaf of
its own in the place of every constant.  If that leaf has the value of the
constant, rules do not notice: a relabelling commutes with building and with
rewriting.  The relabelling that keeps the constants gives the shape of a
formula, and two formulas with one shape are structurally equal.
-/

namespace ExactFormula
namespace Formula

mutual

/-- Take the identities off a formula and replace its constants. -/
def relabel (leaf : String → Rat → Formula) : Formula → Formula
  | literal _ value => literal none value
  | constant _ name value => leaf name value
  | output _ name inner => output none name (relabel leaf inner)
  | derived _ op operands value => derived none op (relabelAll leaf operands) value

/-- Take the identities off some formulas and replace their constants. -/
def relabelAll (leaf : String → Rat → Formula) : List Formula → List Formula
  | [] => []
  | x :: rest => relabel leaf x :: relabelAll leaf rest

end

/-- A formula without identities. -/
def shape : Formula → Formula :=
  relabel named

section

variable (leaf : String → Rat → Formula)

theorem relabelAll_eq_map (operands : List Formula) :
    relabelAll leaf operands = operands.map (relabel leaf) := by
  induction operands with
  | nil => rfl
  | cons x rest inductionHypothesis =>
      rw [relabelAll, inductionHypothesis, List.map_cons]

@[simp] theorem relabel_literal (id : Option NodeId) (value : Rat) :
    relabel leaf (literal id value) = ofRat value := rfl

@[simp] theorem relabel_ofRat (value : Rat) :
    relabel leaf (ofRat value) = ofRat value := rfl

@[simp] theorem relabel_constant (id : Option NodeId) (name : String) (value : Rat) :
    relabel leaf (constant id name value) = leaf name value := rfl

@[simp] theorem relabel_output (id : Option NodeId) (name : String) (inner : Formula) :
    relabel leaf (output id name inner) = labelled name (relabel leaf inner) := rfl

/-- An operator node keeps its operator and its value, and its operands are relabelled. -/
@[simp] theorem relabel_derived
    (id : Option NodeId)
    (op : Operator)
    (operands : List Formula)
    (value : Rat) :
    relabel leaf (derived id op operands value) =
      derived none op (operands.map (relabel leaf)) value := by
  rw [relabel, relabelAll_eq_map]

mutual

/-- A relabelling does not see identities. -/
theorem relabel_shape : ∀ x : Formula, relabel leaf x.shape = relabel leaf x
  | literal _ _ => rfl
  | constant _ _ _ => rfl
  | output _ name inner => congrArg (output none name) (relabel_shape inner)
  | derived _ op operands value =>
      congrArg (derived none op · value) (relabelAll_shape operands)

theorem relabelAll_shape :
    ∀ operands : List Formula,
      relabelAll leaf (relabelAll named operands) = relabelAll leaf operands
  | [] => rfl
  | x :: rest => by
      rw [relabelAll, relabelAll, relabelAll, relabelAll_shape rest]
      exact congrArg (· :: relabelAll leaf rest) (relabel_shape x)

end

end

/-- A leaf that stands for a constant has the value of the constant. -/
def KeepsValues (leaf : String → Rat → Formula) : Prop :=
  ∀ name value, (leaf name value).constantValue? = some value

/-- A named constant has the value that it was given. -/
theorem keepsValues_named : KeepsValues named :=
  fun _ _ => rfl

section

variable {leaf : String → Rat → Formula}

/-- A leaf with a value is a literal or a constant. -/
theorem KeepsValues.leaf_cases
    (keeps : KeepsValues leaf)
    (name : String)
    (value : Rat) :
    (∃ id, leaf name value = literal id value) ∨
      ∃ id shown, leaf name value = constant id shown value := by
  have valued := keeps name value
  cases found : leaf name value with
  | literal id held =>
      rw [found] at valued
      exact .inl ⟨id, by rw [Option.some.inj valued]⟩
  | constant id shown held =>
      rw [found] at valued
      exact .inr ⟨id, shown, by rw [Option.some.inj valued]⟩
  | output id shown inner => simp [found, constantValue?] at valued
  | derived id op operands held => simp [found, constantValue?] at valued

/-! ## What a relabelling keeps -/

/-- Relabelling keeps the value of a formula. -/
theorem value_relabel (keeps : KeepsValues leaf) (x : Formula) :
    (relabel leaf x).value = x.value := by
  fun_induction Formula.value x with
  | case1 id held => rfl
  | case2 id name held =>
      obtain ⟨id, same⟩ | ⟨id, shown, same⟩ := keeps.leaf_cases name held <;>
        rw [relabel_constant, same, Formula.value]
  | case3 id name inner inductionHypothesis => exact inductionHypothesis
  | case4 id op operands held => rfl

theorem map_value_relabel (keeps : KeepsValues leaf) (operands : List Formula) :
    (operands.map (relabel leaf)).map Formula.value = operands.map Formula.value := by
  rw [List.map_map]
  exact List.map_congr_left fun x _ => value_relabel keeps x

/-- Relabelling keeps the value of a leaf, and makes no leaf of anything else. -/
theorem constantValue?_relabel (keeps : KeepsValues leaf) (x : Formula) :
    (relabel leaf x).constantValue? = x.constantValue? := by
  cases x with
  | constant id name value => exact keeps name value
  | _ => rfl

/-- Relabelling keeps whether a formula is a leaf with the value zero. -/
theorem isZero_relabel (keeps : KeepsValues leaf) (x : Formula) :
    (relabel leaf x).isZero = x.isZero := by
  rw [isZero, isZero, constantValue?_relabel keeps]

/-- Relabelling keeps whether a formula is a leaf with the value one. -/
theorem isOne_relabel (keeps : KeepsValues leaf) (x : Formula) :
    (relabel leaf x).isOne = x.isOne := by
  rw [isOne, isOne, constantValue?_relabel keeps]

/-- Relabelling keeps the value of a literal, if no constant becomes one. -/
theorem literalValue?_relabel
    (unread : ∀ name value, (leaf name value).literalValue? = none)
    (x : Formula) :
    (relabel leaf x).literalValue? = x.literalValue? := by
  cases x with
  | constant id name value => exact unread name value
  | _ => rfl

mutual

/-- Relabelling keeps the weight of a formula. -/
theorem weight_relabel (keeps : KeepsValues leaf) :
    ∀ x : Formula, (relabel leaf x).weight = x.weight
  | literal _ _ => rfl
  | constant _ name value => by
      obtain ⟨id, same⟩ | ⟨id, shown, same⟩ := keeps.leaf_cases name value <;>
        rw [relabel_constant, same] <;> rfl
  | output _ _ inner => congrArg (· + 1) (weight_relabel keeps inner)
  | derived _ op operands _ => congrArg (nodeWeight op) (weightOf_relabelAll keeps operands)

theorem weightOf_relabelAll (keeps : KeepsValues leaf) :
    ∀ operands : List Formula, weightOf (relabelAll leaf operands) = weightOf operands
  | [] => rfl
  | x :: rest => by
      rw [relabelAll, weightOf_cons, weightOf_cons, weight_relabel keeps x,
        weightOf_relabelAll keeps rest]

end

/-! ## Building -/

/-- What a formula leaves in an operand list is relabelled with it. -/
theorem spliced_relabel (keeps : KeepsValues leaf) (op : Operator) (x : Formula) :
    spliced op (relabel leaf x) = (spliced op x).map (relabel leaf) := by
  cases x with
  | literal id value => rfl
  | constant id name value =>
      obtain ⟨own, same⟩ | ⟨own, shown, same⟩ := keeps.leaf_cases name value <;>
        rw [relabel_constant, same] <;> simp [spliced, same]
  | output id name inner => rfl
  | derived id child operands value =>
      rw [relabel_derived]
      by_cases same : child = op
      · simp [spliced, same]
      · simp [spliced, same]

/-- Flattening an operand list and relabelling it may be exchanged. -/
theorem splice_map_relabel
    (keeps : KeepsValues leaf)
    (op : Operator)
    (operands : List Formula) :
    splice op (operands.map (relabel leaf)) = (splice op operands).map (relabel leaf) := by
  unfold splice
  split
  · rw [List.flatMap_map, List.map_flatMap]
    exact congrArg (List.flatMap · operands) (funext fun x => spliced_relabel keeps op x)
  · rfl

/-- Building a node and relabelling it may be exchanged. -/
theorem relabel_ofValue
    (keeps : KeepsValues leaf)
    (op : Operator)
    (operands : List Formula)
    (value : Rat) :
    relabel leaf (ofValue op operands value) =
      ofValue op (operands.map (relabel leaf)) value := by
  rw [ofValue, relabel_derived, ofValue, splice_map_relabel keeps]

theorem relabel_mul (keeps : KeepsValues leaf) (x y : Formula) :
    relabel leaf (mul x y) = mul (relabel leaf x) (relabel leaf y) := by
  rw [mul, mul, relabel_ofValue keeps, value_relabel keeps, value_relabel keeps,
    List.map_cons, List.map_cons, List.map_nil]

/-- Building a product and relabelling it may be exchanged. -/
theorem relabel_product (keeps : KeepsValues leaf) (factors : List Formula) :
    relabel leaf (product factors) = product (factors.map (relabel leaf)) := by
  cases factors with
  | nil => rfl
  | cons first rest =>
      rw [List.map_cons, product, product]
      induction rest generalizing first with
      | nil => rfl
      | cons x rest inductionHypothesis =>
          rw [List.foldl_cons, List.map_cons, List.foldl_cons, ← relabel_mul keeps]
          exact inductionHypothesis (first.mul x)

/-- Dividing and relabelling may be exchanged, and one fails where the other does. -/
theorem div_relabel (keeps : KeepsValues leaf) (x y : Formula) :
    div (relabel leaf x) (relabel leaf y) = (div x y).map (relabel leaf) := by
  rw [div, div, value_relabel keeps, value_relabel keeps]
  cases Number.divide x.value y.value with
  | error cause => rfl
  | ok value => exact congrArg Except.ok (relabel_ofValue keeps .div [x, y] value).symm

end

end Formula

/-! ## Entering -/

namespace Store

/-- The literal that a pool gives has the shape of a new one. -/
theorem shape_internIn
    (pool : Pool)
    (held : List Formula)
    (value : Rat)
    (store : Store) :
    (store.internIn pool held value).1.shape = Formula.ofRat value := by
  cases found : pool.lookup? (inUse held) value <;>
    simp [internIn, fresh, found, Formula.shape]

mutual

/-- Entering a draft does not change its shape. -/
theorem shape_enter (held : List Formula) :
    ∀ (x : Formula) (store : Store), (store.enter held x).1.shape = x.shape
  | .literal none value, store => shape_internIn store.pool held value store
  | .constant none name value, store => rfl
  | .output none name inner, store => by
      unfold enter
      exact congrArg (Formula.output none name) (shape_enter held inner store)
  | .derived none op operands value, store => by
      unfold enter
      exact congrArg (Formula.derived none op · value) (shape_enterAll held operands store)
  | .literal (some id) value, store => rfl
  | .constant (some id) name value, store => rfl
  | .output (some id) name inner, store => rfl
  | .derived (some id) op operands value, store => rfl

/-- Entering drafts does not change their shapes. -/
theorem shape_enterAll (held : List Formula) :
    ∀ (operands : List Formula) (store : Store),
      Formula.relabelAll Formula.named (store.enterAll held operands).1 =
        Formula.relabelAll Formula.named operands
  | [], store => rfl
  | x :: rest, store => by
      unfold enterAll
      rw [Formula.relabelAll, Formula.relabelAll]
      refine congr (congrArg List.cons (shape_enter held x store)) ?_
      exact shape_enterAll ((store.enter held x).1 :: held) rest (store.enter held x).2

end

/-- Entering a formula into a store gives it identities, which relabelling does not see. -/
theorem relabel_enter
    (leaf : String → Rat → Formula)
    (held : List Formula)
    (x : Formula)
    (store : Store) :
    Formula.relabel leaf (store.enter held x).1 = Formula.relabel leaf x := by
  rw [← Formula.relabel_shape, shape_enter, Formula.relabel_shape]

end Store

end ExactFormula
