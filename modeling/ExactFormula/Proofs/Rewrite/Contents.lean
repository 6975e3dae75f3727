import ExactFormula.Proofs.Formula.Chain
import ExactFormula.Proofs.Rewrite.Outputs
import ExactFormula.Proofs.Rewrite.Trail

/-!
# What simplification leaves of a formula

Rules move operands about and drop them, and never make a second copy of one.  So a
simplified formula has no constant and no output that was not there before, none of
them more often than it was, and no more nodes in all.
-/

namespace ExactFormula
namespace Formula

/-- The constants of a formula with their values, each as often as it stands there. -/
def constants : Formula → Multiset (String × Rat) :=
  gather (fun name value => {(name, value)}) fun _ _ => 0

/-- The names of the outputs of a formula, each as often as an output has it. -/
def outputNames : Formula → Multiset String :=
  gather (fun _ _ => 0) fun name _ => {name}

mutual

/-- The number of nodes of a formula; one that is shared counts wherever it stands. -/
def nodeCount : Formula → Nat
  | literal _ _ => 1
  | constant _ _ _ => 1
  | output _ _ inner => nodeCount inner + 1
  | derived _ _ operands _ => nodeCountOf operands + 1

/-- The number of nodes of some formulas. -/
def nodeCountOf : List Formula → Nat
  | [] => 0
  | x :: rest => nodeCount x + nodeCountOf rest

end

/-! ## Counting nodes -/

@[simp] theorem nodeCount_ofRat (value : Rat) : nodeCount (ofRat value) = 1 := rfl

@[simp] theorem nodeCountOf_nil : nodeCountOf [] = 0 := rfl

@[simp] theorem nodeCountOf_cons (x : Formula) (rest : List Formula) :
    nodeCountOf (x :: rest) = nodeCount x + nodeCountOf rest := rfl

/-- Two operand lists one after the other have the nodes of both. -/
@[simp] theorem nodeCountOf_append (front back : List Formula) :
    nodeCountOf (front ++ back) = nodeCountOf front + nodeCountOf back := by
  induction front with
  | nil => simp
  | cons x rest inductionHypothesis => simp [inductionHypothesis, Nat.add_assoc]

theorem nodeCount_pos (x : Formula) : 0 < nodeCount x := by
  cases x <;> simp [nodeCount]

/-- A list without some of its operands has no more nodes than the list. -/
theorem nodeCountOf_le_of_sublist {few many : List Formula} (sublist : few.Sublist many) :
    nodeCountOf few ≤ nodeCountOf many := by
  induction sublist with
  | slnil => exact le_refl 0
  | cons x _ inductionHypothesis =>
      rw [nodeCountOf_cons]
      omega
  | cons_cons x _ inductionHypothesis =>
      rw [nodeCountOf_cons, nodeCountOf_cons]
      omega

/-- An operand has no more nodes than all operands together. -/
theorem nodeCount_le_of_mem {x : Formula} {operands : List Formula} (member : x ∈ operands) :
    nodeCount x ≤ nodeCountOf operands := by
  have single : nodeCountOf [x] ≤ nodeCountOf operands :=
    nodeCountOf_le_of_sublist (List.singleton_sublist.mpr member)
  simpa using single

/-- An operator node has one node more than its operands. -/
theorem nodeCount_of_operandsOf?
    {op : Operator}
    {x : Formula}
    {operands : List Formula}
    (found : x.operandsOf? op = some operands) :
    nodeCount x = nodeCountOf operands + 1 := by
  obtain ⟨_, id, value, rfl⟩ := operandsOf?_eq_some found
  rfl

/-- A binary node has one node more than its two sides. -/
theorem nodeCount_of_pairOf?
    {op : Operator}
    {x left right : Formula}
    (found : x.pairOf? op = some (left, right)) :
    nodeCount x = nodeCount left + nodeCount right + 1 := by
  obtain ⟨id, value, rfl⟩ := pairOf?_eq_some found
  simp [nodeCount]

/-- Splicing a chain into an operand list can only lose the node of the chain. -/
theorem nodeCountOf_spliced_le (op : Operator) (x : Formula) :
    nodeCountOf (spliced op x) ≤ nodeCount x := by
  cases x with
  | derived id child operands value =>
      rw [spliced]
      split
      · exact Nat.le_succ _
      · simp
  | literal | constant | output => simp [spliced]

/-- A chain that is opened up loses its root and nothing else. -/
theorem nodeCountOf_splice_le (op : Operator) (operands : List Formula) :
    nodeCountOf (splice op operands) ≤ nodeCountOf operands := by
  unfold splice
  split
  · induction operands with
    | nil => exact le_refl 0
    | cons x rest inductionHypothesis =>
        have first := nodeCountOf_spliced_le op x
        rw [List.flatMap_cons, nodeCountOf_append, nodeCountOf_cons]
        omega
  · exact le_refl _

/-- A node that is built has at most one node more than its operands. -/
theorem nodeCount_ofValue_le (op : Operator) (operands : List Formula) (value : Rat) :
    nodeCount (ofValue op operands value) ≤ nodeCountOf operands + 1 :=
  Nat.succ_le_succ (nodeCountOf_splice_le op operands)

theorem nodeCount_pair_le (op : Operator) (x y : Formula) (value : Rat) :
    nodeCount (ofValue op [x, y] value) ≤ nodeCount x + nodeCount y + 1 :=
  nodeCount_ofValue_le op [x, y] value

theorem nodeCount_mul_le (x y : Formula) : nodeCount (mul x y) ≤ nodeCount x + nodeCount y + 1 :=
  nodeCount_pair_le .mul x y _

/-- A quotient has at most one node more than the dividend and the divisor. -/
theorem nodeCount_of_div_eq_ok {x y quotient : Formula} (built : div x y = .ok quotient) :
    nodeCount quotient ≤ nodeCount x + nodeCount y + 1 := by
  obtain ⟨_, rfl⟩ := div_eq_ok_iff.mp built
  exact nodeCount_pair_le .div x y _

/-- A product of many factors is one chain, so it has one node besides theirs at most. -/
theorem nodeCount_product_le (factors : List Formula) :
    nodeCount (product factors) ≤ nodeCountOf factors + 1 := by
  match factors with
  | [] => exact le_refl 1
  | [x] => exact Nat.le_succ (nodeCount x)
  | x :: y :: rest =>
      have several : 2 ≤ (x :: y :: rest).length := by simp
      have flat : product (x :: y :: rest) = Chain.product.flat (x :: y :: rest) :=
        Chain.product.ofList_eq_flat several
      rw [flat, Chain.flat, ← Chain.ofValue_operator]
      exact nodeCount_ofValue_le _ _ _

mutual

/-- Identities do not count. -/
theorem nodeCount_shape : ∀ x : Formula, nodeCount x.shape = nodeCount x
  | literal _ _ => rfl
  | constant _ _ _ => rfl
  | output _ _ inner => congrArg (· + 1) (nodeCount_shape inner)
  | derived _ _ operands _ => congrArg (· + 1) (nodeCountOf_shape operands)

theorem nodeCountOf_shape :
    ∀ operands : List Formula, nodeCountOf (relabelAll named operands) = nodeCountOf operands
  | [] => rfl
  | x :: rest => congrArg₂ (· + ·) (nodeCount_shape x) (nodeCountOf_shape rest)

end

/-! ## One rewrite -/

/-- No rule makes more nodes than it takes away. -/
theorem nodeCount_le_of_effect
    {rule : Rule}
    {x y : Formula}
    (effect : rule.Effect x y) :
    nodeCount y ≤ nodeCount x := by
  have positive := nodeCount_pos
  cases effect with
  | identities => exact positive x
  | remainder _ found remaining =>
      have member := List.mem_of_mem_filter (remaining.symm ▸ List.mem_singleton_self y)
      rw [nodeCount_of_operandsOf? found]
      exact Nat.le_succ_of_le (nodeCount_le_of_mem member)
  | remainders _ found =>
      rw [nodeCount_of_operandsOf? found]
      refine (nodeCount_ofValue_le _ _ _).trans (Nat.succ_le_succ ?_)
      exact nodeCountOf_le_of_sublist List.filter_sublist
  | subtractedZero found =>
      rw [nodeCount_of_pairOf? found]
      omega
  | @subtractedFromZero _ left right found =>
      have built := nodeCount_mul_le (ofRat (-1)) right
      have zero := positive left
      rw [nodeCount_ofRat] at built
      rw [nodeCount_of_pairOf? found]
      omega
  | zeroFactor => exact positive x
  | @absorbed _ quotient numerator denominator _ before after found isFraction built =>
      -- The quotient and the product change places, and each of them keeps its own node.
      have result := nodeCount_of_div_eq_ok built
      have product := nodeCount_product_le (before ++ after ++ [numerator])
      have fraction : nodeCount quotient = nodeCount numerator + nodeCount denominator + 1 :=
        nodeCount_of_pairOf? isFraction
      simp only [nodeCountOf_append, nodeCountOf_cons, nodeCountOf_nil] at product
      rw [nodeCount_of_operandsOf? found, nodeCountOf_append, nodeCountOf_cons, fraction]
      omega
  | folded => exact positive x
  | @moved _ sign other before after front back number found _ others =>
      have result := nodeCount_ofValue_le .mul (front ++ ofRat (-number) :: back) x.value
      have joined := congrArg nodeCountOf others
      have literal := positive other
      simp only [nodeCountOf_append, nodeCountOf_cons, nodeCount_ofRat] at result joined
      rw [nodeCount_of_operandsOf? found, nodeCountOf_append, nodeCountOf_cons]
      omega
  | dividedByOne found =>
      rw [nodeCount_of_pairOf? found]
      omega
  | dividedZero => exact positive x
  | @dividedByFraction _ numerator denominator above below _ found divisor built =>
      have result := nodeCount_of_div_eq_ok built
      have product := nodeCount_mul_le numerator below
      rw [nodeCount_of_pairOf? found, nodeCount_of_pairOf? divisor]
      omega
  | @dividedFraction _ numerator denominator above below _ found dividend built =>
      have result := nodeCount_of_div_eq_ok built
      have product := nodeCount_mul_le below denominator
      rw [nodeCount_of_pairOf? found, nodeCount_of_pairOf? dividend]
      omega
  | exponentOne found =>
      rw [nodeCount_of_pairOf? found]
      omega
  | exponentZero => exact positive x
  | baseZero => exact positive x
  | baseOne => exact positive x

/-- A replacement with no more nodes leaves no more nodes in the whole. -/
theorem Replaces.nodeCount_le
    {node replacement x y : Formula}
    (replaces : Replaces node replacement x y)
    (fewer : nodeCount replacement ≤ nodeCount node) :
    nodeCount y ≤ nodeCount x := by
  induction replaces with
  | root => exact fewer
  | inner _ inductionHypothesis => exact Nat.succ_le_succ inductionHypothesis
  | @operand id op before after value x y _ inductionHypothesis =>
      refine (nodeCount_ofValue_le op (before ++ y :: after) value).trans (Nat.succ_le_succ ?_)
      simp only [nodeCountOf_append, nodeCountOf_cons]
      omega

/-- A formula has nothing that another one does not have as often. -/
structure NoMoreThan (y x : Formula) : Prop where
  constants : constants y ≤ constants x
  outputNames : outputNames y ≤ outputNames x
  nodeCount : nodeCount y ≤ nodeCount x

theorem NoMoreThan.refl (x : Formula) : NoMoreThan x x where
  constants := le_refl _
  outputNames := le_refl _
  nodeCount := le_refl _

/-- Having no more than another formula is passed on from step to step. -/
theorem NoMoreThan.trans
    {x y z : Formula}
    (later : NoMoreThan z y)
    (earlier : NoMoreThan y x) :
    NoMoreThan z x where
  constants := later.constants.trans earlier.constants
  outputNames := later.outputNames.trans earlier.outputNames
  nodeCount := later.nodeCount.trans earlier.nodeCount

/-- Rewriting the first match of a rule leaves no more than there was. -/
theorem noMoreThan_of_rewriteFirst?
    {rule : Rule}
    {x y : Formula}
    (rewritten : x.rewriteFirst? rule.apply = some y) :
    NoMoreThan y x where
  constants := gather_rewriteFirst?_le
    (fun _ _ applied => gather_le_of_effect (Rule.effect_of_apply applied))
    (fun _ _ _ _ => le_refl 0) x rewritten
  outputNames := gather_rewriteFirst?_le
    (fun _ _ applied => gather_le_of_effect (Rule.effect_of_apply applied))
    (fun name _ _ _ => le_refl {name}) x rewritten
  nodeCount := by
    obtain ⟨node, replacement, _, applied, replaces⟩ := replaces_of_rewriteFirst? x rewritten
    exact replaces.nodeCount_le (nodeCount_le_of_effect (Rule.effect_of_apply applied))

/-- What is no more than a formula does not depend on identities. -/
theorem NoMoreThan.of_shape_eq
    {x y z : Formula}
    (noMore : NoMoreThan y x)
    (same : z.shape = y.shape) :
    NoMoreThan z x where
  constants := by
    have equal := congrArg Formula.constants same
    rw [Formula.constants, gather_shape, gather_shape] at equal
    exact equal.le.trans noMore.constants
  outputNames := by
    have equal := congrArg Formula.outputNames same
    rw [Formula.outputNames, gather_shape, gather_shape] at equal
    exact equal.le.trans noMore.outputNames
  nodeCount := by
    have equal := congrArg Formula.nodeCount same
    rw [nodeCount_shape, nodeCount_shape] at equal
    exact equal.le.trans noMore.nodeCount

end Formula

open Formula

/-! ## Whole runs -/

section

variable {rules : List Rule} {x y : Formula}

/-- A rewrite leaves no more than there was. -/
theorem noMoreThan_of_rewrites (rewrites : Rewrites rules x y) : NoMoreThan y x := by
  obtain ⟨rule, _, draft, rewritten, same⟩ := rewrites
  exact (noMoreThan_of_rewriteFirst? rewritten).of_shape_eq same

/-- Rules lead to formulas that have no more than the one they started from. -/
theorem noMoreThan_of_reaches (reaches : Reaches rules x y) : NoMoreThan y x := by
  induction reaches with
  | refl => exact .refl x
  | tail _ rewrites inductionHypothesis =>
      exact (noMoreThan_of_rewrites rewrites).trans inductionHypothesis

end

/--
The constants of a simplified formula and the names of its outputs were there before,
each at least as often, and there are no more nodes than there were.
-/
theorem Store.contents_simplify_le
    (rules : List Rule)
    (held : List Formula)
    (x : Formula)
    (store : Store) :
    (store.simplify rules held x).1.constants ≤ x.constants ∧
      (store.simplify rules held x).1.outputNames ≤ x.outputNames ∧
      (store.simplify rules held x).1.nodeCount ≤ x.nodeCount := by
  obtain ⟨events, passes, hits, _, trail⟩ := store.trail_simplify rules held x
  have noMore := noMoreThan_of_reaches trail.reaches
  exact ⟨noMore.constants, noMore.outputNames, noMore.nodeCount⟩

end ExactFormula
