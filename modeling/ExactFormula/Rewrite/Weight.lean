import ExactFormula.Rewrite.Effect
import ExactFormula.Rewrite.Replacement

/-!
# A weight that every rewrite lowers

A leaf weighs two and an output one more than what it wraps.  A sum or a
product weighs the product of the weights of its operands, and any other
formula one more than that product.  So a chain weighs the same however it is
nested, and a fraction inside a product weighs more than a product inside a
fraction.
-/

namespace ExactFormula
namespace Formula

/-- The weight of a formula whose operands have the given product of weights. -/
def nodeWeight (op : Operator) (operands : Nat) : Nat :=
  if op.isAssociative then max 2 operands else operands + 1

mutual

/-- The weight of a formula. -/
def weight : Formula → Nat
  | literal _ _ => 2
  | constant _ _ _ => 2
  | output _ _ inner => weight inner + 1
  | derived _ op operands _ => nodeWeight op (weightOf operands)

/-- The product of the weights of formulas. -/
def weightOf : List Formula → Nat
  | [] => 1
  | x :: rest => weight x * weightOf rest

end

@[simp] theorem weight_literal (id : Option NodeId) (value : Rat) :
    weight (literal id value) = 2 := rfl

@[simp] theorem weight_constant (id : Option NodeId) (name : String) (value : Rat) :
    weight (constant id name value) = 2 := rfl

@[simp] theorem weight_output (id : Option NodeId) (name : String) (inner : Formula) :
    weight (output id name inner) = weight inner + 1 := rfl

@[simp] theorem weight_derived
    (id : Option NodeId)
    (op : Operator)
    (operands : List Formula)
    (value : Rat) :
    weight (derived id op operands value) = nodeWeight op (weightOf operands) := rfl

@[simp] theorem weightOf_nil : weightOf [] = 1 := rfl

@[simp] theorem weightOf_cons (x : Formula) (rest : List Formula) :
    weightOf (x :: rest) = weight x * weightOf rest := rfl

@[simp] theorem weight_ofRat (value : Rat) : weight (ofRat value) = 2 := rfl

mutual

/-- Every formula weighs at least as much as a leaf. -/
theorem two_le_weight : ∀ x : Formula, 2 ≤ weight x
  | literal _ _ => Nat.le_refl 2
  | constant _ _ _ => Nat.le_refl 2
  | output _ _ inner => Nat.le_succ_of_le (two_le_weight inner)
  | derived _ op operands _ => by
      have positive := weightOf_pos operands
      rw [weight_derived, nodeWeight]
      split <;> omega

/-- A product of weights is positive. -/
theorem weightOf_pos : ∀ operands : List Formula, 0 < weightOf operands
  | [] => Nat.one_pos
  | x :: rest =>
      Nat.mul_pos (Nat.lt_of_lt_of_le Nat.two_pos (two_le_weight x)) (weightOf_pos rest)

end

/-- The weight of two operand lists is the product of their weights. -/
theorem weightOf_append (left right : List Formula) :
    weightOf (left ++ right) = weightOf left * weightOf right := by
  induction left with
  | nil => simp
  | cons x rest inductionHypothesis => simp [inductionHypothesis, Nat.mul_assoc]

/-- Every formula in a list is a factor of the weight of the list. -/
theorem two_le_weightOf {operands : List Formula} (nonempty : operands ≠ []) :
    2 ≤ weightOf operands := by
  cases operands with
  | nil => exact absurd rfl nonempty
  | cons x rest =>
      exact Nat.le_trans (two_le_weight x) (Nat.le_mul_of_pos_right _ (weightOf_pos rest))

theorem nodeWeight_le {op : Operator} {m n : Nat} (le : m ≤ n) :
    nodeWeight op m ≤ nodeWeight op n := by
  unfold nodeWeight
  split <;> omega

/-- Lighter operands make a lighter node. -/
theorem nodeWeight_lt {op : Operator} {m n : Nat} (two_le : 2 ≤ m) (lt : m < n) :
    nodeWeight op m < nodeWeight op n := by
  unfold nodeWeight
  split <;> omega

/-! ## Building -/

/-- Splicing a chain into an operand list does not make it heavier. -/
theorem weightOf_spliced_le
    {op : Operator}
    (associative : op.isAssociative = true)
    (x : Formula) :
    weightOf (spliced op x) ≤ weight x := by
  cases x with
  | derived id child operands value =>
      by_cases same : child = op
      · subst same
        simp only [spliced, if_true, weight_derived, nodeWeight, associative]
        exact Nat.le_max_right _ _
      · simp [spliced, same]
  | _ => simp [spliced]

/-- Flattening a chain never raises its weight. -/
theorem weightOf_splice_le (op : Operator) (operands : List Formula) :
    weightOf (splice op operands) ≤ weightOf operands := by
  unfold splice
  split
  · rename_i associative
    induction operands with
    | nil => exact Nat.le_refl 1
    | cons x rest inductionHypothesis =>
        rw [List.flatMap_cons, weightOf_append, weightOf_cons]
        exact Nat.mul_le_mul (weightOf_spliced_le associative x) inductionHypothesis
  · exact Nat.le_refl _

/-- A node that is built weighs no more than its operands make it. -/
theorem weight_ofValue_le (op : Operator) (operands : List Formula) (value : Rat) :
    weight (ofValue op operands value) ≤ nodeWeight op (weightOf operands) :=
  nodeWeight_le (weightOf_splice_le op operands)

theorem weight_mul_le (x y : Formula) : weight (mul x y) ≤ weight x * weight y := by
  refine Nat.le_trans (weight_ofValue_le _ _ _) ?_
  have atLeast : 2 ≤ weight x * weight y :=
    Nat.le_trans (two_le_weight x)
      (Nat.le_mul_of_pos_right _ (Nat.lt_of_lt_of_le Nat.two_pos (two_le_weight y)))
  simp [nodeWeight, Operator.isAssociative]
  omega

theorem weight_of_div_eq_ok
    {x y quotient : Formula}
    (built : div x y = .ok quotient) :
    weight quotient ≤ weight x * weight y + 1 := by
  unfold div at built
  cases divided : Number.divide x.value y.value with
  | error cause => simp [divided, bind, Except.bind] at built
  | ok value =>
      simp only [divided, bind, Except.bind, pure, Except.pure, Except.ok.injEq] at built
      subst built
      refine Nat.le_trans (weight_ofValue_le _ _ _) ?_
      simp [nodeWeight, Operator.isAssociative]

theorem weight_foldl_mul_le (rest : List Formula) (first : Formula) :
    weight (rest.foldl mul first) ≤ weight first * weightOf rest := by
  induction rest generalizing first with
  | nil => simp
  | cons x rest inductionHypothesis =>
      rw [List.foldl_cons, weightOf_cons, ← Nat.mul_assoc]
      exact Nat.le_trans (inductionHypothesis _)
        (Nat.mul_le_mul_right _ (weight_mul_le first x))

/-- A product weighs no more than its factors together. -/
theorem weight_product_le
    {factors : List Formula}
    (nonempty : factors ≠ []) :
    weight (product factors) ≤ weightOf factors := by
  cases factors with
  | nil => exact absurd rfl nonempty
  | cons first rest => exact weight_foldl_mul_le rest first

/-! ## The shapes that rules look for -/

/-- A binary formula weighs one more than the product of its operands. -/
theorem weight_of_pairOf?
    {op : Operator}
    {x left right : Formula}
    (binary : op.isAssociative = false)
    (found : x.pairOf? op = some (left, right)) :
    weight x = weight left * weight right + 1 := by
  obtain ⟨id, value, rfl⟩ := pairOf?_eq_some found
  simp [nodeWeight, binary]

/-- The left operand weighs less than the binary formula. -/
theorem weight_lt_of_pairOf?
    {op : Operator}
    {x left right : Formula}
    (binary : op.isAssociative = false)
    (found : x.pairOf? op = some (left, right)) :
    weight left < weight x := by
  rw [weight_of_pairOf? binary found]
  have := Nat.mul_le_mul_left (weight left) (two_le_weight right)
  omega

/-- A binary formula weighs more than a leaf. -/
theorem two_lt_weight_of_pairOf?
    {op : Operator}
    {x left right : Formula}
    (binary : op.isAssociative = false)
    (found : x.pairOf? op = some (left, right)) :
    2 < weight x :=
  Nat.lt_of_le_of_lt (two_le_weight left) (weight_lt_of_pairOf? binary found)

/-- A chain of two or more operands weighs their product. -/
theorem weight_of_operandsOf?
    {op : Operator}
    {x : Formula}
    {operands : List Formula}
    (associative : op.isAssociative = true)
    (found : x.operandsOf? op = some operands) :
    2 ≤ operands.length ∧ weight x = weightOf operands := by
  obtain ⟨accepted, id, value, rfl⟩ := operandsOf?_eq_some found
  have long : 2 ≤ operands.length := by
    cases op <;> simp_all [Operator.arity, Arity.accepts, Operator.isAssociative]
  refine ⟨long, ?_⟩
  have heavy : 2 ≤ weightOf operands := two_le_weightOf (by rintro rfl; simp at long)
  simp [nodeWeight, associative]
  omega

/-- A chain of two or more operands weighs at least twice as much as a leaf. -/
theorem four_le_weightOf {operands : List Formula} (long : 2 ≤ operands.length) :
    4 ≤ weightOf operands := by
  match operands, long with
  | x :: y :: rest, _ =>
      have first := two_le_weight x
      have others : 2 ≤ weightOf (y :: rest) := two_le_weightOf (by simp)
      simpa using Nat.mul_le_mul first others

/-! ## Every rule lowers the weight -/

/-- The formulas that pass a filter weigh no more than all of them. -/
theorem weightOf_filter_le (test : Formula → Bool) (operands : List Formula) :
    weightOf (operands.filter test) ≤ weightOf operands := by
  induction operands with
  | nil => exact Nat.le_refl 1
  | cons x rest inductionHypothesis =>
      cases passes : test x with
      | true =>
          rw [List.filter_cons_of_pos passes]
          exact Nat.mul_le_mul_left _ inductionHypothesis
      | false =>
          rw [List.filter_cons_of_neg (by simp [passes])]
          refine Nat.le_trans inductionHypothesis ?_
          exact Nat.le_mul_of_pos_left _ (Nat.lt_of_lt_of_le Nat.two_pos (two_le_weight x))

/-- A filter that removes a formula at least halves the weight. -/
theorem two_mul_weightOf_filter_le
    {test : Formula → Bool}
    {operands : List Formula}
    (shorter : (operands.filter test).length ≠ operands.length) :
    2 * weightOf (operands.filter test) ≤ weightOf operands := by
  induction operands with
  | nil => simp at shorter
  | cons x rest inductionHypothesis =>
      cases passes : test x with
      | true =>
          rw [List.filter_cons_of_pos passes] at shorter ⊢
          have halved := inductionHypothesis (by simpa using shorter)
          rw [weightOf_cons, weightOf_cons, Nat.mul_left_comm]
          exact Nat.mul_le_mul_left _ halved
      | false =>
          rw [List.filter_cons_of_neg (by simp [passes])]
          exact Nat.mul_le_mul (two_le_weight x) (weightOf_filter_le test rest)

/-- A chain that loses operands becomes lighter. -/
theorem weight_remainders_lt
    {op : Operator}
    {x : Formula}
    {operands : List Formula}
    {test : Formula → Bool}
    (associative : op.isAssociative = true)
    (found : x.operandsOf? op = some operands)
    (shorter : (operands.filter test).length ≠ operands.length) :
    weight (ofValue op (operands.filter test) x.value) < weight x := by
  obtain ⟨long, weight_eq⟩ := weight_of_operandsOf? associative found
  have heavy := four_le_weightOf long
  have halved := two_mul_weightOf_filter_le shorter
  rw [weight_eq]
  refine Nat.lt_of_le_of_lt (weight_ofValue_le _ _ _) ?_
  simp [nodeWeight, associative]
  omega

/-- A product becomes lighter when its first fraction absorbs the other factors. -/
theorem weight_absorbed_lt
    {x quotient numerator denominator y : Formula}
    {before after : List Formula}
    (found : x.operandsOf? .mul = some (before ++ quotient :: after))
    (isFraction : quotient.fraction? = some (numerator, denominator))
    (built : div (product (before ++ after ++ [numerator])) denominator = .ok y) :
    weight y < weight x := by
  obtain ⟨long, weight_eq⟩ := weight_of_operandsOf? rfl found
  have quotient_eq : weight quotient = weight numerator * weight denominator + 1 :=
    weight_of_pairOf? rfl isFraction
  have result_le := weight_of_div_eq_ok built
  have product_le :
      weight (product (before ++ after ++ [numerator])) ≤
        weightOf (before ++ after ++ [numerator]) :=
    weight_product_le (by simp)
  have others : 2 ≤ weightOf (before ++ after) := by
    apply two_le_weightOf
    intro empty
    obtain ⟨rfl, rfl⟩ := List.append_eq_nil_iff.1 empty
    simp at long
  simp only [weightOf_append, weightOf_cons, weightOf_nil, Nat.mul_one] at product_le others
  rw [weight_eq, weightOf_append, weightOf_cons, quotient_eq]
  calc
    weight y
        ≤ weight (product (before ++ after ++ [numerator])) * weight denominator + 1 := result_le
    _ ≤ weightOf before * weightOf after * weight numerator * weight denominator + 1 :=
        Nat.succ_le_succ (Nat.mul_le_mul_right _ product_le)
    _ < weightOf before * weightOf after * weight numerator * weight denominator +
          weightOf before * weightOf after := by omega
    _ = weightOf before *
          ((weight numerator * weight denominator + 1) * weightOf after) := by
        simp [Nat.mul_add, Nat.add_mul, Nat.mul_comm, Nat.mul_left_comm, Nat.mul_assoc]

/-- A product without its sign weighs at most half of what it did, whatever literal is put in. -/
theorem two_mul_weightOf_moved_le
    {x sign other : Formula}
    {before after front back : List Formula}
    (number : Rat)
    (found : x.operandsOf? .mul = some (before ++ sign :: after))
    (others : before ++ after = front ++ other :: back) :
    2 * weightOf (front ++ ofRat number :: back) ≤ weight x := by
  obtain ⟨_, weight_eq⟩ := weight_of_operandsOf? rfl found
  have light : weightOf (front ++ ofRat number :: back) ≤ weightOf before * weightOf after := by
    rw [← weightOf_append, others, weightOf_append, weightOf_append, weightOf_cons, weightOf_cons]
    exact Nat.mul_le_mul_left _ (Nat.mul_le_mul_right _ (two_le_weight other))
  have doubled : 2 * (weightOf before * weightOf after) ≤ weight x := by
    rw [weight_eq, weightOf_append, weightOf_cons, Nat.mul_left_comm]
    exact Nat.mul_le_mul_left _ (Nat.mul_le_mul_right _ (two_le_weight sign))
  exact Nat.le_trans (Nat.mul_le_mul_left 2 light) doubled

/-- A chain weighs more than any leaf. -/
theorem two_lt_weight_of_operandsOf?
    {op : Operator}
    {x : Formula}
    {operands : List Formula}
    (associative : op.isAssociative = true)
    (found : x.operandsOf? op = some operands) :
    2 < weight x := by
  obtain ⟨long, weight_eq⟩ := weight_of_operandsOf? associative found
  have heavy := four_le_weightOf long
  omega

end Formula

namespace Rule

open Formula

/-- Whatever a rule does lowers the weight. -/
theorem Effect.weight_lt
    {rule : Rule}
    {x y : Formula}
    (effect : Effect rule x y) :
    weight y < weight x := by
  cases effect with
  | identities identity found => exact two_lt_weight_of_operandsOf? identity.isAssociative found
  | @remainder _ _ isIdentity _ _ operands identity found remaining =>
      obtain ⟨long, weight_eq⟩ := weight_of_operandsOf? identity.isAssociative found
      have shorter :
          (operands.filter fun operand => !isIdentity operand).length ≠ operands.length := by
        rw [remaining, List.length_singleton]
        omega
      have halved := two_mul_weightOf_filter_le shorter
      have light := two_le_weight y
      rw [remaining, weightOf_cons, weightOf_nil, Nat.mul_one, ← weight_eq] at halved
      omega
  | remainders identity found shorter =>
      exact weight_remainders_lt identity.isAssociative found shorter
  | subtractedZero found => exact weight_lt_of_pairOf? rfl found
  | @subtractedFromZero _ left right found =>
      have product_le := weight_mul_le (ofRat (-1)) right
      have doubled := Nat.mul_le_mul_right (weight right) (two_le_weight left)
      rw [weight_ofRat] at product_le
      rw [weight_of_pairOf? rfl found]
      omega
  | zeroFactor found => exact two_lt_weight_of_operandsOf? rfl found
  | absorbed found isFraction built => exact weight_absorbed_lt found isFraction built
  | folded found => exact two_lt_weight_of_operandsOf? rfl found
  | @moved _ _ _ _ _ front back number found _ others =>
      have halved := two_mul_weightOf_moved_le (-number) found others
      have leaves : 2 ≤ weightOf (front ++ ofRat (-number) :: back) := two_le_weightOf (by simp)
      refine Nat.lt_of_le_of_lt (weight_ofValue_le _ _ _) ?_
      simp only [nodeWeight, Operator.isAssociative, if_true]
      omega
  | dividedByOne found => exact weight_lt_of_pairOf? rfl found
  | dividedZero found => exact two_lt_weight_of_pairOf? rfl found
  | @dividedByFraction _ numerator _ above below _ found divisor built =>
      have result_le := weight_of_div_eq_ok built
      have product_le := Nat.mul_le_mul_right (weight above) (weight_mul_le numerator below)
      have light := two_le_weight numerator
      rw [weight_of_pairOf? rfl found, weight_of_pairOf? rfl divisor, Nat.mul_add, Nat.mul_one,
        Nat.mul_comm (weight above), ← Nat.mul_assoc]
      omega
  | @dividedFraction _ _ denominator above below _ found dividend built =>
      have result_le := weight_of_div_eq_ok built
      have product_le := Nat.mul_le_mul_left (weight above) (weight_mul_le below denominator)
      have light := two_le_weight denominator
      rw [weight_of_pairOf? rfl found, weight_of_pairOf? rfl dividend, Nat.add_mul, Nat.one_mul,
        Nat.mul_assoc]
      omega
  | exponentOne found => exact weight_lt_of_pairOf? rfl found
  | exponentZero found => exact two_lt_weight_of_pairOf? rfl found
  | baseZero found => exact two_lt_weight_of_pairOf? rfl found
  | baseOne found => exact two_lt_weight_of_pairOf? rfl found

/-- Every rule gives a replacement that weighs less than the formula that it replaces. -/
theorem weight_apply_lt
    {rule : Rule}
    {x y : Formula}
    (applied : rule.apply x = some y) :
    weight y < weight x :=
  (effect_of_apply applied).weight_lt

end Rule

namespace Formula

/-- Replacing a node by a lighter one, wherever it stands, lowers the weight of the whole. -/
theorem weight_lt_of_replaces
    {node replacement x y : Formula}
    (lighter : weight replacement < weight node)
    (replaces : Replaces node replacement x y) :
    weight y < weight x := by
  induction replaces with
  | root => exact lighter
  | inner _ inductionHypothesis => exact Nat.succ_lt_succ inductionHypothesis
  | @operand id op before after value x y _ inductionHypothesis =>
      have nonempty : 2 ≤ weightOf (before ++ y :: after) := two_le_weightOf (by simp)
      have lowered : weightOf (before ++ y :: after) < weightOf (before ++ x :: after) := by
        rw [weightOf_append, weightOf_append, weightOf_cons, weightOf_cons]
        exact Nat.mul_lt_mul_of_pos_left
          (Nat.mul_lt_mul_of_pos_right inductionHypothesis (weightOf_pos after))
          (weightOf_pos before)
      exact Nat.lt_of_le_of_lt (weight_ofValue_le op _ value) (nodeWeight_lt nonempty lowered)

/-- Rewriting the first match with a rule that lowers the weight lowers the weight of the whole. -/
theorem weight_rewriteFirst?_lt
    {rule : Formula → Option Formula}
    (lowers : ∀ x y, rule x = some y → weight y < weight x)
    {x y : Formula}
    (rewritten : rewriteFirst? rule x = some y) :
    weight y < weight x := by
  obtain ⟨node, replacement, _, matched, replaces⟩ := replaces_of_rewriteFirst? x rewritten
  exact weight_lt_of_replaces (lowers node replacement matched) replaces

end Formula
end ExactFormula
