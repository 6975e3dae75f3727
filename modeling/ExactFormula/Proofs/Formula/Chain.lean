import ExactFormula.Proofs.Formula.Coherence
import Mathlib.Algebra.BigOperators.Group.List.Basic

/-!
# Chains

Sums and products can be built of two formulas at a time, with the parentheses set
in any way, or of a whole list.  All of this gives one and the same flat chain: the
operands in their order, each chain of the same kind among them opened up, and the
sum or the product of their values.
-/

namespace ExactFormula

open Formula

/-- The two kinds of formulas with any number of operands. -/
inductive Chain
  /-- Operands that are added. -/
  | sum
  /-- Operands that are multiplied. -/
  | product
  deriving DecidableEq, Repr

namespace Chain

/-- The operator of a chain. -/
def operator : Chain → Operator
  | sum => .add
  | product => .mul

/-- The chain of two formulas. -/
def join : Chain → Formula → Formula → Formula
  | sum => Formula.add
  | product => Formula.mul

/-- The chain of a list of formulas. -/
def ofList : Chain → List Formula → Formula
  | sum => Formula.sum
  | product => Formula.product

/-- The value of a chain, from those of its operands. -/
def total : Chain → List Rat → Rat
  | sum => List.sum
  | product => List.prod

/-- What a formula brings into a chain: its own operands if it is a chain of that kind. -/
def links (chain : Chain) (x : Formula) : List Formula :=
  if x.op? = some chain.operator then x.operands else [x]

/-- The flat chain of some operands. -/
def flat (chain : Chain) (operands : List Formula) : Formula :=
  .derived none chain.operator (operands.flatMap chain.links)
    (chain.total (operands.map Formula.value))

variable {chain : Chain}

theorem isAssociative_operator (chain : Chain) : chain.operator.isAssociative = true := by
  cases chain <;> rfl

theorem total_operator (chain : Chain) (values : List Rat) :
    chain.operator.total values = chain.total values := by
  cases chain <;> rfl

theorem total_append (chain : Chain) (left right : List Rat) :
    chain.total (left ++ right) = chain.total [chain.total left, chain.total right] := by
  cases chain <;> simp [total]

/-! ## Flattening -/

/-- What splicing leaves of a formula is what it brings into the chain. -/
theorem spliced_operator (chain : Chain) (x : Formula) :
    spliced chain.operator x = chain.links x := by
  cases x with
  | derived id op operands value => simp [spliced, links, op?, Formula.operands]
  | literal | constant | output => simp [spliced, links, op?]

/-- A chain is built from what its operands bring in. -/
theorem ofValue_operator (chain : Chain) (operands : List Formula) (value : Rat) :
    ofValue chain.operator operands value =
      .derived none chain.operator (operands.flatMap chain.links) value := by
  rw [ofValue, splice, if_pos chain.isAssociative_operator, funext chain.spliced_operator]

/-- Two formulas are joined to a chain of what both bring in. -/
theorem join_eq (chain : Chain) (x y : Formula) :
    chain.join x y =
      .derived none chain.operator (chain.links x ++ chain.links y)
        (chain.total [x.value, y.value]) := by
  have flattened := chain.ofValue_operator [x, y] (chain.total [x.value, y.value])
  rw [List.flatMap_cons, List.flatMap_singleton] at flattened
  rw [← flattened]
  cases chain <;> simp [join, total, operator, Formula.add, Formula.mul]

/-- In a chain, a formula stands for some operands. -/
structure StandsFor (chain : Chain) (x : Formula) (operands : List Formula) : Prop where
  /-- It brings in what they bring in. -/
  links : chain.links x = operands.flatMap chain.links
  /-- It has their total. -/
  value : x.value = chain.total (operands.map Formula.value)

theorem standsFor_self (chain : Chain) (x : Formula) : chain.StandsFor x [x] where
  links := (List.flatMap_singleton _ x).symm
  value := by cases chain <;> simp [total]

/-- A flat chain stands for its operands. -/
theorem standsFor_flat (chain : Chain) (operands : List Formula) :
    chain.StandsFor (chain.flat operands) operands where
  links := if_pos rfl
  value := rfl

/-- Two formulas are joined to the chain of all the operands that they stand for. -/
theorem StandsFor.join_eq_flat
    {x y : Formula}
    {operands others : List Formula}
    (left : chain.StandsFor x operands)
    (right : chain.StandsFor y others) :
    chain.join x y = chain.flat (operands ++ others) := by
  rw [join_eq, flat, left.links, right.links, left.value, right.value, List.flatMap_append,
    List.map_append, total_append]

/-- A chain that is joined from the left stands for all of its operands. -/
theorem standsFor_foldl
    {first : Formula}
    {operands : List Formula}
    (begun : chain.StandsFor first operands)
    (rest : List Formula) :
    chain.StandsFor (rest.foldl chain.join first) (operands ++ rest) := by
  induction rest generalizing first operands with
  | nil =>
      rw [List.append_nil]
      exact begun
  | cons x rest inductionHypothesis =>
      have joined := begun.join_eq_flat (chain.standsFor_self x)
      have continued := inductionHypothesis (joined ▸ chain.standsFor_flat (operands ++ [x]))
      rw [List.append_assoc, List.singleton_append] at continued
      exact continued

/-- A list of two formulas or more becomes their flat chain. -/
theorem ofList_eq_flat
    (chain : Chain)
    {operands : List Formula}
    (several : 2 ≤ operands.length) :
    chain.ofList operands = chain.flat operands := by
  obtain ⟨first, rest, rfl⟩ := List.exists_cons_of_length_pos (Nat.lt_of_lt_of_le two_pos several)
  obtain rfl | ⟨middle, last, rfl⟩ := List.eq_nil_or_concat' rest
  · simp at several
  · have begun := standsFor_foldl (chain.standsFor_self first) middle
    have joined := begun.join_eq_flat (chain.standsFor_self last)
    have folded : chain.ofList (first :: (middle ++ [last])) =
        (middle ++ [last]).foldl chain.join first := by
      cases chain <;> rfl
    rw [folded, List.foldl_append, List.foldl_cons, List.foldl_nil, joined, List.append_assoc,
      List.singleton_append]

/-- An operator makes the flat chain of two operands or more. -/
theorem derive_eq_flat
    (chain : Chain)
    {operands : List Formula}
    (several : 2 ≤ operands.length) :
    derive chain.operator operands = .ok (chain.flat operands) := by
  refine derive_eq_ok_iff.mpr ⟨chain.total (operands.map Formula.value), ?_, ?_⟩
  · rw [Operator.apply_eq_ok_iff chain.isAssociative_operator, List.length_map, total_operator]
    exact ⟨several, rfl⟩
  · exact chain.ofValue_operator operands _

end Chain

/-! ## Parentheses -/

/-- Some formulas in a row, with parentheses that say which two are joined first. -/
inductive Bracketing
  /-- A formula by itself. -/
  | operand (x : Formula)
  /-- Two parts that are joined when each of them has been built. -/
  | joined (left right : Bracketing)

namespace Bracketing

/-- The formulas in a row, without the parentheses. -/
def operands : Bracketing → List Formula
  | operand x => [x]
  | joined left right => left.operands ++ right.operands

/-- Join the formulas in the order that the parentheses give. -/
def build (chain : Chain) : Bracketing → Formula
  | operand x => x
  | joined left right => chain.join (left.build chain) (right.build chain)

/-- Do the same in a store, where each part is entered as soon as it is built. -/
def enter (chain : Chain) (held : List Formula) : Bracketing → Store → Formula × Store
  | operand x, store => store.enter held x
  | joined left right, store =>
      let (x, store) := left.enter chain held store
      let (y, store) := right.enter chain (x :: held) store
      store.enter (x :: y :: held) (chain.join x y)

/-- However a chain is bracketed, it stands for its operands. -/
theorem standsFor_build (chain : Chain) (brackets : Bracketing) :
    chain.StandsFor (brackets.build chain) brackets.operands := by
  induction brackets with
  | operand x => exact chain.standsFor_self x
  | joined left right leftHypothesis rightHypothesis =>
      rw [build, leftHypothesis.join_eq_flat rightHypothesis]
      exact chain.standsFor_flat _

/-- With two operands or more, every bracketing builds the flat chain. -/
theorem build_eq_flat
    (chain : Chain)
    {brackets : Bracketing}
    (several : 2 ≤ brackets.operands.length) :
    brackets.build chain = chain.flat brackets.operands := by
  cases brackets with
  | operand x => simp [operands] at several
  | joined left right =>
      exact (standsFor_build chain left).join_eq_flat (standsFor_build chain right)

end Bracketing

/-- Joining two formulas does not depend on identities. -/
theorem Chain.shape_join (chain : Chain) (x y : Formula) :
    (chain.join x y).shape = chain.join x.shape y.shape := by
  have valued := value_relabel keepsValues_named
  cases chain with
  | sum =>
      rw [join, Formula.add, Formula.add, shape, relabel_ofValue keepsValues_named, valued, valued,
        List.map_cons, List.map_cons, List.map_nil]
  | product => exact relabel_mul keepsValues_named x y

/-- The identities that a store gives to the parts do not show in what is built of them. -/
theorem Bracketing.shape_enter
    (chain : Chain)
    (held : List Formula)
    (brackets : Bracketing)
    (store : Store) :
    (brackets.enter chain held store).1.shape = (brackets.build chain).shape := by
  induction brackets generalizing held store with
  | operand x => exact Store.shape_enter held x store
  | joined left right leftHypothesis rightHypothesis =>
      rw [enter, build, Store.shape_enter, Chain.shape_join, Chain.shape_join, leftHypothesis,
        rightHypothesis]

/--
Two formulas or more make one chain, wherever the parentheses are set: its operands
are theirs in order, with each chain of the same kind among them opened up, and its
value is their sum or product.  The chain of the list and the operator applied to the
list are the same, and so is, up to identities, what is built in a store step by step.
-/
theorem Chain.build_agrees
    (chain : Chain)
    (brackets : Bracketing)
    (several : 2 ≤ brackets.operands.length) :
    brackets.build chain =
        .derived none chain.operator (brackets.operands.flatMap chain.links)
          (chain.total (brackets.operands.map Formula.value)) ∧
      chain.ofList brackets.operands = brackets.build chain ∧
      derive chain.operator brackets.operands = .ok (brackets.build chain) ∧
      ∀ held store,
        (brackets.enter chain held store).1.shape = (brackets.build chain).shape := by
  have built := Bracketing.build_eq_flat chain several
  refine ⟨built, ?_, ?_, fun held store => brackets.shape_enter chain held store⟩
  · rw [built, chain.ofList_eq_flat several]
  · rw [built, chain.derive_eq_flat several]

/-- A sum of a sum, of an output that hides a sum, and of a number: only the first is opened up. -/
theorem Chain.build_agrees_hidden_sum :
    let first := add (ofRat 1) (ofRat 2)
    let hidden := labelled "total" (add (ofRat 3) (ofRat 4))
    let brackets := Bracketing.joined (.operand first) (.joined (.operand hidden) (.operand (ofRat 5)))
    2 ≤ brackets.operands.length ∧
      brackets.build .sum = .derived none .add [ofRat 1, ofRat 2, hidden, ofRat 5] 15 ∧
      derive .add [first, hidden, ofRat 5] = .ok (brackets.build .sum) := by
  intro first hidden brackets
  have several : 2 ≤ brackets.operands.length := by decide
  obtain ⟨built, _, derived, _⟩ := Chain.build_agrees .sum brackets several
  refine ⟨several, built.trans ?_, derived⟩
  have value : Chain.total .sum (brackets.operands.map Formula.value) = 15 := by
    change ([1 + 2, 3 + 4, 5] : List Rat).sum = 15
    norm_num
  rw [value]
  rfl

end ExactFormula
