import ExactFormula.Proofs.Formula.WellFormed
import ExactFormula.Proofs.Rewrite.Context
import ExactFormula.Rewrite.Simplify

/-!
# Sessions

A session is any sequence of the things that can be done with a store: building a
formula on formulas that are held, rewriting one, letting formulas go, sweeping
the pool.  Every formula there is comes from a session, so what every transition
keeps holds of every formula.
-/

namespace ExactFormula

open Formula

/-- What is built on formulas that are held, by constructors, by a rule, or by a rewrite. -/
inductive Drafted (held : List Formula) : Formula → Prop
  /-- A formula that is held. -/
  | held {x : Formula} : x ∈ held → Drafted held x
  /-- The literal of a number. -/
  | literal (value : Rat) : Drafted held (ofRat value)
  /-- A number under a name. -/
  | constant (name : String) (value : Rat) : Drafted held (named name value)
  /-- A formula under a name. -/
  | output (name : String) {x : Formula} : Drafted held x → Drafted held (labelled name x)
  /-- An operator on operands. -/
  | derive
      {op : Operator}
      {operands : List Formula}
      {x : Formula} :
      (∀ operand ∈ operands, Drafted held operand) → derive op operands = .ok x → Drafted held x
  /-- A binary operator on two operands. -/
  | combine
      {op : BinaryOperator}
      {x y z : Formula} :
      Drafted held x → Drafted held y → x.combine op y = .ok z → Drafted held z
  /-- The integer part of a formula, rounded down. -/
  | floor {x : Formula} : Drafted held x → Drafted held x.floor
  /-- The sum of operands. -/
  | sum {operands : List Formula} :
      (∀ operand ∈ operands, Drafted held operand) → Drafted held (sum operands)
  /-- The product of operands. -/
  | product {operands : List Formula} :
      (∀ operand ∈ operands, Drafted held operand) → Drafted held (product operands)
  /-- What a rule makes of the root. -/
  | applied {rule : Rule} {x y : Formula} : Drafted held x → rule.apply x = some y → Drafted held y
  /-- What a rule makes of its first match. -/
  | rewritten
      {rule : Rule}
      {x y : Formula} :
      Drafted held x → x.rewriteFirst? rule.apply = some y → Drafted held y

/-- What is built on some formulas is built on more of them as well. -/
theorem Drafted.mono
    {held more : List Formula}
    {x : Formula}
    (drafted : Drafted held x)
    (subset : ∀ y ∈ held, y ∈ more) :
    Drafted more x := by
  induction drafted with
  | held member => exact .held (subset _ member)
  | literal value => exact .literal value
  | constant name value => exact .constant name value
  | output name _ inductionHypothesis => exact .output name inductionHypothesis
  | derive _ built inductionHypothesis => exact .derive inductionHypothesis built
  | combine _ _ built left right => exact .combine left right built
  | floor _ inductionHypothesis => exact .floor inductionHypothesis
  | sum _ inductionHypothesis => exact .sum inductionHypothesis
  | product _ inductionHypothesis => exact .product inductionHypothesis
  | applied _ applied inductionHypothesis => exact .applied inductionHypothesis applied
  | rewritten _ rewritten inductionHypothesis => exact .rewritten inductionHypothesis rewritten

/-- A node is part of a formula that is held. -/
def InUse (held : List Formula) (node : Formula) : Prop :=
  ∃ x ∈ held, Occurs node x

section

variable {held kept : List Formula} {node x : Formula}

theorem InUse.of_mem (member : x ∈ held) : InUse held x :=
  ⟨x, member, .root⟩

/-- The parts of a node that is in use are in use. -/
theorem InUse.part (inUse : InUse held x) (occurs : Occurs node x) : InUse held node := by
  obtain ⟨root, member, inside⟩ := inUse
  exact ⟨root, member, occurs.trans inside⟩

/-- A node that is in use stays so while no formula is let go. -/
theorem InUse.of_subset (inUse : InUse kept node) (subset : ∀ x ∈ kept, x ∈ held) :
    InUse held node := by
  obtain ⟨root, member, inside⟩ := inUse
  exact ⟨root, subset root member, inside⟩

theorem inUse_cons_iff : InUse (x :: held) node ↔ Occurs node x ∨ InUse held node := by
  simp [InUse]

end

/-- What can be done with a store and the formulas that are held there. -/
inductive Transition : Store → List Formula → Store → List Formula → Prop
  /-- A draft is entered, and held from then on. -/
  | enter
      {store : Store}
      {held : List Formula}
      {draft : Formula} :
      Drafted held draft →
      Transition store held (store.enter held draft).2 ((store.enter held draft).1 :: held)
  /-- A literal is made beside the pool. -/
  | unpooled
      {store : Store}
      {held : List Formula}
      (value : Rat) :
      Transition store held store.fresh.2 (.literal (some store.fresh.1) value :: held)
  /-- Some formulas are let go, or a part of one is held in its place. -/
  | keep
      {store : Store}
      {held kept : List Formula} :
      (∀ x ∈ kept, InUse held x) → Transition store held store kept
  /-- The pool is swept. -/
  | sweep
      {store : Store}
      {held : List Formula} :
      Transition store held (store.sweep held).2 held
  /-- The log is written, or emptied. -/
  | log
      {store : Store}
      {held : List Formula}
      (events : List Event) :
      Transition store held { store with log := events } held

/-- What can be done one after the other. -/
inductive Evolves (store : Store) (held : List Formula) : Store → List Formula → Prop
  /-- Nothing is done. -/
  | rest : Evolves store held store held
  /-- One more thing is done. -/
  | next
      {middle later : Store}
      {others kept : List Formula} :
      Evolves store held middle others → Transition middle others later kept →
      Evolves store held later kept

/-- A store and the formulas that are held there, from the beginning on. -/
def Session (store : Store) (held : List Formula) : Prop :=
  Evolves {} [] store held

namespace Evolves

variable {store middle later : Store} {held others kept : List Formula} {x y : Formula}

theorem trans
    (first : Evolves store held middle others)
    (second : Evolves middle others later kept) :
    Evolves store held later kept := by
  induction second with
  | rest => exact first
  | next _ transition inductionHypothesis => exact .next inductionHypothesis transition

/-- Some of the formulas that are held may be let go. -/
theorem of_subset (evolves : Evolves store held later others) (subset : ∀ x ∈ kept, x ∈ others) :
    Evolves store held later kept :=
  evolves.next (.keep fun x member => .of_mem (subset x member))

/-- The formula that another one was made from is let go. -/
theorem of_cons_cons (evolves : Evolves store held later (y :: x :: kept)) :
    Evolves store held later (y :: kept) :=
  evolves.of_subset (by simp +contextual)

/-! ## Rewriting -/

/-- Exhausting a rule is a stretch of a session: each draft is entered, then recorded, then held. -/
theorem exhaust (rule : Rule) (evolves : Evolves store held later (x :: kept)) :
    Evolves store held (Rewriting.exhaust rule kept x later).store
      ((Rewriting.exhaust rule kept x later).formula :: kept) := by
  fun_induction Rewriting.exhaust rule kept x later with
  | case1 x later found => exact evolves
  | case2 x later draft found entered rest inductionHypothesis =>
      have drafted : Drafted (x :: kept) draft := .rewritten (.held (by simp)) found
      have recorded := (evolves.next (.enter drafted)).next
        (.log (entered.2.log ++ [.rewrite rule x entered.1]))
      exact inductionHypothesis recorded.of_cons_cons

theorem byRule (rule : Rule) (evolves : Evolves store held later (x :: kept)) :
    Evolves store held (Rewriting.byRule rule kept x later).store
      ((Rewriting.byRule rule kept x later).formula :: x :: kept) :=
  Evolves.exhaust rule (evolves.of_subset (by simp))

theorem inOrder (rules : List Rule) (evolves : Evolves store held later (x :: kept)) :
    Evolves store held (Rewriting.inOrder kept rules x later).store
      ((Rewriting.inOrder kept rules x later).formula :: kept) := by
  induction rules generalizing x later with
  | nil => exact evolves
  | cons rule rules inductionHypothesis =>
      exact inductionHypothesis (evolves.byRule rule).of_cons_cons

theorem pass (rules : List Rule) (evolves : Evolves store held later (x :: kept)) :
    Evolves store held (Rewriting.pass rules kept x later).store
      ((Rewriting.pass rules kept x later).formula :: x :: kept) :=
  Evolves.inOrder rules (evolves.of_subset (by simp))

/-- Passes until nothing fires are a stretch of a session. -/
theorem settle
    (rules : List Rule)
    (passes hits : Nat)
    (evolves : Evolves store held later (x :: kept)) :
    Evolves store held (Rewriting.settle rules kept x later passes hits).2
      ((Rewriting.settle rules kept x later passes hits).1 :: kept) := by
  fun_induction Rewriting.settle rules kept x later passes hits with
  | case1 x later passes hits round quiet =>
      exact ((evolves.pass rules).next (.log _)).of_cons_cons
  | case2 x later passes hits round fired inductionHypothesis =>
      exact inductionHypothesis (evolves.pass rules).of_cons_cons

/-- Simplification leaves its result in the place of the formula that it was given. -/
theorem simplify (rules : List Rule) (evolves : Evolves store held later (x :: kept)) :
    Evolves store held (later.simplify rules kept x).2 ((later.simplify rules kept x).1 :: kept) :=
  evolves.settle rules 0 0

end Evolves

theorem Session.start : Session {} [] :=
  .rest

/-- A session goes on when a draft is entered. -/
theorem Session.enter
    {store : Store}
    {held : List Formula}
    {draft : Formula}
    (session : Session store held)
    (drafted : Drafted held draft) :
    Session (store.enter held draft).2 ((store.enter held draft).1 :: held) :=
  session.next (.enter drafted)

/-! ## What building keeps -/

/--
Something that holds of leaves, that a formula and its parts share, and that holds
of whatever is built on as many operands as the operator takes.
-/
structure Inherited (motive : Formula → Prop) : Prop where
  /-- It holds of literals. -/
  literal : ∀ value, motive (ofRat value)
  /-- It holds of constants. -/
  constant : ∀ name value, motive (named name value)
  /-- It holds of a formula under a name. -/
  output : ∀ name {x}, motive x → motive (labelled name x)
  /-- It holds of what an output wraps. -/
  inner : ∀ {id name x}, motive (.output id name x) → motive x
  /-- A node has as many operands as its operator takes, and it holds of all of them. -/
  operand : ∀ {id op operands value}, motive (.derived id op operands value) →
    op.arity.accepts operands.length = true ∧ ∀ x ∈ operands, motive x
  /-- It holds of what is built on operands of which it holds. -/
  build : ∀ {op operands value}, op.arity.accepts operands.length = true →
    (∀ x ∈ operands, motive x) → motive (ofValue op operands value)

namespace Inherited

variable {motive : Formula → Prop} (inherited : Inherited motive) {x y result : Formula}

include inherited

/-- What building keeps is hereditary. -/
theorem hereditary : Hereditary motive where
  literal := inherited.literal
  operand holds := (inherited.operand holds).2
  build _ := inherited.build

/-- An operator that has a value takes the number of operands that it was given. -/
theorem of_derive_eq_ok
    {op : Operator}
    {operands : List Formula}
    (inside : ∀ x ∈ operands, motive x)
    (built : derive op operands = .ok result) :
    motive result := by
  obtain ⟨value, evaluated, rfl⟩ := derive_eq_ok_iff.mp built
  have accepted := Operator.accepts_of_apply_eq_ok evaluated
  rw [List.length_map] at accepted
  exact inherited.build accepted inside

/-- Every combinator that gives a formula builds a node on two operands. -/
theorem of_combine_eq_ok
    {op : BinaryOperator}
    (left : motive x)
    (right : motive y)
    (built : x.combine op y = .ok result) :
    motive result := by
  have operands : ∀ operand ∈ [x, y], motive operand := by simp [left, right]
  cases op with
  | add =>
      rw [combine, Except.ok.injEq] at built
      exact built ▸ inherited.build rfl operands
  | sub =>
      rw [combine, Except.ok.injEq] at built
      exact built ▸ inherited.build rfl operands
  | mul =>
      rw [combine, Except.ok.injEq] at built
      exact built ▸ inherited.build rfl operands
  | div =>
      obtain ⟨_, rfl⟩ := div_eq_ok_iff.mp built
      exact inherited.build rfl operands
  | pow =>
      obtain ⟨value, _, rfl⟩ := pow_eq_ok_iff.mp built
      exact inherited.build rfl operands

/-- A sum is built by adding one operand after the other. -/
theorem sum {operands : List Formula} (inside : ∀ x ∈ operands, motive x) :
    motive (Formula.sum operands) := by
  cases operands with
  | nil => exact inherited.literal 0
  | cons first rest =>
      refine foldl_induction (fun x y left right => ?_) inside
      exact inherited.build rfl (by simp [left, right])

/-- The nodes above a replacement have as many operands as before. -/
theorem of_replaces
    {node replacement : Formula}
    (replaces : Replaces node replacement x y)
    (kept : motive replacement)
    (holds : motive x) :
    motive y := by
  induction replaces with
  | root => exact kept
  | inner _ inductionHypothesis =>
      exact inherited.output _ (inductionHypothesis (inherited.inner holds))
  | operand _ inductionHypothesis =>
      obtain ⟨accepted, inside⟩ := inherited.operand holds
      refine inherited.build ?_ (forall_mem_replaced inside inductionHypothesis)
      rw [List.length_append, List.length_cons] at accepted ⊢
      exact accepted

theorem of_occurs {node : Formula} (occurs : Occurs node x) (holds : motive x) : motive node := by
  induction occurs with
  | root => exact holds
  | inner _ inductionHypothesis => exact inductionHypothesis (inherited.inner holds)
  | operand member _ inductionHypothesis =>
      exact inductionHypothesis ((inherited.operand holds).2 _ member)

/-- Applying a rule at the root keeps what building keeps. -/
theorem of_apply_eq_some
    {rule : Rule}
    (holds : motive x)
    (applied : rule.apply x = some y) :
    motive y :=
  inherited.hereditary.of_effect (Rule.effect_of_apply applied) holds

/-- Rewriting the first match keeps what building keeps. -/
theorem of_rewriteFirst?_eq_some
    {rule : Rule}
    (holds : motive x)
    (rewritten : x.rewriteFirst? rule.apply = some y) :
    motive y := by
  obtain ⟨node, replacement, _, matched, replaces⟩ := replaces_of_rewriteFirst? x rewritten
  have inside : motive node := inherited.of_occurs replaces.occurs holds
  exact inherited.of_replaces replaces (inherited.of_apply_eq_some inside matched) holds

/-- What is inherited and holds of the formulas that are held holds of what is built on them. -/
theorem of_drafted
    {held : List Formula}
    {draft : Formula}
    (drafted : Drafted held draft)
    (inside : ∀ x ∈ held, motive x) :
    motive draft := by
  induction drafted with
  | held member => exact inside _ member
  | literal value => exact inherited.literal value
  | constant name value => exact inherited.constant name value
  | output name _ inductionHypothesis => exact inherited.output name inductionHypothesis
  | derive _ built operands => exact inherited.of_derive_eq_ok operands built
  | combine _ _ built left right => exact inherited.of_combine_eq_ok left right built
  | floor _ operand => exact inherited.build rfl (by simp [operand])
  | sum _ operands => exact inherited.sum operands
  | product _ operands => exact inherited.hereditary.product operands
  | applied _ applied holds => exact inherited.of_apply_eq_some holds applied
  | rewritten _ rewritten holds => exact inherited.of_rewriteFirst?_eq_some holds rewritten

end Inherited

/-! ## Well-formed formulas -/

/-- Building on well-formed operands gives a well-formed formula. -/
theorem Formula.inherited_wellFormed : Inherited WellFormed where
  literal := wellFormed_literal none
  constant := wellFormed_constant none
  output _ _ := wellFormed_output_iff.mpr
  inner := wellFormed_output_iff.mp
  operand wellFormed :=
    have ⟨⟨accepted, _⟩, inside⟩ := wellFormed_derived_iff.mp wellFormed
    ⟨accepted, inside⟩
  build := wellFormed_ofValue

/-- One transition leads from well-formed formulas to well-formed formulas. -/
theorem Transition.wellFormed
    {store later : Store}
    {held kept : List Formula}
    (transition : Transition store held later kept)
    (inside : ∀ x ∈ held, WellFormed x) :
    ∀ x ∈ kept, WellFormed x := by
  cases transition with
  | @enter draft drafted =>
      rw [List.forall_mem_cons]
      refine ⟨?_, inside⟩
      exact wellFormed_of_shape_eq (Store.shape_enter held draft store)
        (inherited_wellFormed.of_drafted drafted inside)
  | unpooled value =>
      rw [List.forall_mem_cons]
      exact ⟨wellFormed_literal _ value, inside⟩
  | keep parts =>
      intro x member
      obtain ⟨y, present, occurs⟩ := parts x member
      exact (inside y present).of_occurs occurs
  | sweep => exact inside
  | log => exact inside

/-- However long a session goes on, well-formed formulas lead to well-formed formulas. -/
theorem Evolves.wellFormed
    {store later : Store}
    {held kept : List Formula}
    (evolves : Evolves store held later kept)
    (inside : ∀ x ∈ held, WellFormed x) :
    ∀ x ∈ kept, WellFormed x := by
  induction evolves with
  | rest => exact inside
  | next _ transition inductionHypothesis => exact transition.wellFormed inductionHypothesis

/-- Every formula of a session is well formed. -/
theorem Session.wellFormed
    {store : Store}
    {held : List Formula}
    (session : Session store held) :
    ∀ x ∈ held, WellFormed x :=
  Evolves.wellFormed session (by simp)

end ExactFormula
