import ExactFormula.Proofs.Rewrite.Unstored
import ExactFormula.Proofs.Store.Identity

/-!
# Fixed points

A formula is at rest when no rule matches any of its nodes.  Simplification stops
there and nowhere else.  A formula at rest is given back as the node that it is,
and any other is not: what is given back weighs less, and in a session two
formulas that differ are two nodes.
-/

namespace ExactFormula

open Formula

/-- None of the rules matches any node of a formula; nodes inside outputs count. -/
def Rests (rules : List Rule) (x : Formula) : Prop :=
  ∀ rule ∈ rules, Everywhere (fun node => rule.apply node = none) x

/-- No rule matches an output. -/
theorem Rule.apply_output (rule : Rule) (id : Option NodeId) (name : String) (inner : Formula) :
    rule.apply (.output id name inner) = none := by
  cases rule <;> rfl

/-- Where nothing is rewritten there is no match, provided that outputs are left alone. -/
theorem Formula.rewriteFirst?_eq_none_iff
    {rule : Formula → Option Formula}
    (outputs : ∀ id name inner, rule (output id name inner) = none)
    {x : Formula} :
    x.rewriteFirst? rule = none ↔ Everywhere (fun node => rule node = none) x := by
  constructor
  · intro quiet node occurs
    have declined := rewriteFirst?_eq_none_of_occurs occurs quiet
    cases node with
    | literal id value => exact declined
    | constant id name value => exact declined
    | output id name inner => exact outputs id name inner
    | derived id op operands value =>
        unfold rewriteFirst? at declined
        cases matched : rule (derived id op operands value) with
        | none => rfl
        | some replacement => simp [matched] at declined
  · intro unmatched
    cases rewritten : x.rewriteFirst? rule with
    | none => rfl
    | some y =>
        obtain ⟨node, replacement, _, matched, replaces⟩ := replaces_of_rewriteFirst? x rewritten
        simp [unmatched node replaces.occurs] at matched

theorem rests_iff {rules : List Rule} {x : Formula} :
    Rests rules x ↔ ∀ rule ∈ rules, x.rewriteFirst? rule.apply = none :=
  forall₂_congr fun rule _ => (rewriteFirst?_eq_none_iff rule.apply_output).symm

theorem rests_singleton_iff {rule : Rule} {x : Formula} :
    Rests [rule] x ↔ x.rewriteFirst? rule.apply = none := by
  rw [rests_iff, List.forall_mem_singleton]

theorem rests_cons_iff {rule : Rule} {rules : List Rule} {x : Formula} :
    Rests (rule :: rules) x ↔ Rests [rule] x ∧ Rests rules x := by
  rw [rests_singleton_iff, rests_iff, rests_iff, List.forall_mem_cons]

/-! ## When a rule fires -/

namespace Rewriting

/-- A rule does not fire exactly where the formula is at rest. -/
theorem fired_exhaust_eq_zero_iff
    (rule : Rule)
    (held : List Formula)
    (x : Formula)
    (store : Store) :
    (exhaust rule held x store).fired = 0 ↔ Rests [rule] x := by
  rw [rests_singleton_iff]
  fun_cases exhaust rule held x store with
  | case1 found => simp [found]
  | case2 draft found entered rest => simp [found]

/-- A pass fires nothing exactly when it finds nothing in the formula that it begins with. -/
theorem fired_inOrder_eq_zero_iff
    (held : List Formula)
    (rules : List Rule)
    (x : Formula)
    (store : Store) :
    (inOrder held rules x store).fired = 0 ↔ Rests rules x := by
  induction rules generalizing x store with
  | nil => simp [inOrder, Rests]
  | cons rule rules inductionHypothesis =>
      have first := fired_exhaust_eq_zero_iff rule (x :: held) x store
      have rest := inductionHypothesis
        (byRule rule held x store).formula (byRule rule held x store).store
      rw [rests_cons_iff, ← first, inOrder, Nat.add_eq_zero_iff]
      refine and_congr_right fun quiet => ?_
      have same : (byRule rule held x store).formula = x :=
        exhaust_eq_self rule (x :: held) x store quiet
      rw [rest, same]

/-- A rule returns a formula at rest as it was, and makes any other one lighter. -/
theorem exhaust_eq_or_weight_lt
    (rule : Rule)
    (held : List Formula)
    (x : Formula)
    (store : Store) :
    Rests [rule] x ∧ (exhaust rule held x store).formula = x ∨
      ¬Rests [rule] x ∧ (exhaust rule held x store).formula.weight < x.weight := by
  rw [← fired_exhaust_eq_zero_iff rule held x store]
  by_cases quiet : (exhaust rule held x store).fired = 0
  · exact .inl ⟨quiet, exhaust_eq_self rule held x store quiet⟩
  · exact .inr ⟨quiet, (weight_exhaust rule held x store).2 quiet⟩

/-- A pass returns a formula at rest as it was, and makes any other one lighter. -/
theorem inOrder_eq_or_weight_lt
    (held : List Formula)
    (rules : List Rule)
    (x : Formula)
    (store : Store) :
    Rests rules x ∧ (inOrder held rules x store).formula = x ∨
      ¬Rests rules x ∧ (inOrder held rules x store).formula.weight < x.weight := by
  rw [← fired_inOrder_eq_zero_iff held rules x store]
  by_cases quiet : (inOrder held rules x store).fired = 0
  · exact .inl ⟨quiet, inOrder_eq_self quiet⟩
  · exact .inr ⟨quiet, (weight_inOrder held rules x store).2 quiet⟩

/-- Simplification leaves a formula alone where it is at rest, and otherwise lowers its weight. -/
theorem settle_eq_or_weight_lt
    (rules : List Rule)
    (held : List Formula)
    (x : Formula)
    (store : Store)
    (passes hits : Nat) :
    Rests rules x ∧ (settle rules held x store passes hits).1 = x ∨
      ¬Rests rules x ∧ (settle rules held x store passes hits).1.weight < x.weight := by
  fun_induction settle rules held x store passes hits with
  | case1 x store passes hits round quiet =>
      exact .inl ⟨(fired_inOrder_eq_zero_iff (x :: held) rules x store).mp quiet,
        inOrder_eq_self quiet⟩
  | case2 x store passes hits round fired inductionHypothesis =>
      have lower : round.formula.weight < x.weight := weight_pass_lt fired
      refine .inr ⟨mt (fired_inOrder_eq_zero_iff (x :: held) rules x store).mpr fired, ?_⟩
      obtain ⟨_, same⟩ | ⟨_, further⟩ := inductionHypothesis
      · rw [same]
        exact lower
      · exact Nat.lt_trans further lower

/-- The last pass has seen the result, and found no match in it. -/
theorem rests_settle
    (rules : List Rule)
    (held : List Formula)
    (x : Formula)
    (store : Store)
    (passes hits : Nat) :
    Rests rules (settle rules held x store passes hits).1 := by
  fun_induction settle rules held x store passes hits with
  | case1 x store passes hits round quiet =>
      have same : round.formula = x := inOrder_eq_self quiet
      rw [same]
      exact (fired_inOrder_eq_zero_iff (x :: held) rules x store).mp quiet
  | case2 x store passes hits round fired inductionHypothesis => exact inductionHypothesis

end Rewriting

theorem Store.simplify_eq_self
    {rules : List Rule}
    {x : Formula}
    (rests : Rests rules x)
    (held : List Formula)
    (store : Store) :
    (store.simplify rules held x).1 = x := by
  obtain ⟨_, same⟩ | ⟨moves, _⟩ := Rewriting.settle_eq_or_weight_lt rules held x store 0 0
  · exact same
  · exact absurd rests moves

/-! ## Nodes of a session -/

section

variable {store : Store} {held : List Formula} {x y : Formula}

/-- Formulas of a session are one node exactly when they are equal. -/
theorem Session.sameNode_iff
    (session : Session store held)
    (one : x ∈ held)
    (other : y ∈ held) :
    SameNode x y ↔ x = y := by
  constructor
  · exact session.sound.single x y (.of_mem one) (.of_mem other)
  · rintro rfl
    obtain ⟨id, own, _⟩ := session.sound.stored x (.of_mem one)
    exact ⟨id, own, own⟩

/-- What is left alone at rest and lighter otherwise is the same node at rest only. -/
theorem Session.sameNode_iff_of_weight
    (session : Session store (y :: held))
    (member : x ∈ held)
    {rests : Prop}
    (result : rests ∧ y = x ∨ ¬rests ∧ y.weight < x.weight) :
    SameNode x y ↔ rests := by
  rw [session.sameNode_iff (List.mem_cons_of_mem y member) (List.mem_cons_self ..)]
  obtain ⟨quiet, same⟩ | ⟨moves, lower⟩ := result
  · exact iff_of_true same.symm quiet
  · exact iff_of_false (fun same => Nat.ne_of_lt lower (congrArg weight same.symm)) moves

/--
Simplification ends where no rule matches any node, and gives that formula back
unchanged from then on.  It gives the node back that it was given exactly when no
rule matches in it; so does a pass, and so does a single rule, and these report
that something fired exactly otherwise.
-/
theorem session_simplify_rests (session : Session store held) (member : x ∈ held) :
    (∀ rules : List Rule,
      Rests rules (store.simplify rules held x).1 ∧
      (∀ (others : List Formula) (other : Store),
        SameNode (store.simplify rules held x).1
            (other.simplify rules others (store.simplify rules held x).1).1 ∧
          (other.simplify rules others (store.simplify rules held x).1).1 =
            (store.simplify rules held x).1) ∧
      (SameNode x (store.simplify rules held x).1 ↔ Rests rules x) ∧
      (SameNode x (Rewriting.pass rules held x store).formula ↔ Rests rules x) ∧
      ((Rewriting.pass rules held x store).fired ≠ 0 ↔ ¬Rests rules x)) ∧
    ∀ rule : Rule,
      (SameNode x (Rewriting.byRule rule held x store).formula ↔ Rests [rule] x) ∧
      ((Rewriting.byRule rule held x store).fired ≠ 0 ↔ ¬Rests [rule] x) := by
  have begun : Session store (x :: held) := session.of_subset (by simp [member])
  have present : x ∈ x :: held := List.mem_cons_self ..
  refine ⟨fun rules => ⟨?_, ?_, ?_, ?_, ?_⟩, fun rule => ⟨?_, ?_⟩⟩
  · exact Rewriting.rests_settle rules held x store 0 0
  · intro others other
    have rests := Rewriting.rests_settle rules held x store 0 0
    have same := Store.simplify_eq_self rests others other
    have result : (store.simplify rules held x).1 ∈ (store.simplify rules held x).1 :: held :=
      List.mem_cons_self ..
    refine ⟨?_, same⟩
    rw [Store.simplify] at result ⊢
    rw [same]
    exact (Session.sameNode_iff (begun.simplify rules) result result).mpr rfl
  · exact Session.sameNode_iff_of_weight (begun.simplify rules) member
      (Rewriting.settle_eq_or_weight_lt rules held x store 0 0)
  · exact Session.sameNode_iff_of_weight (begun.pass rules) present
      (Rewriting.inOrder_eq_or_weight_lt (x :: held) rules x store)
  · exact not_congr (Rewriting.fired_inOrder_eq_zero_iff (x :: held) rules x store)
  · exact Session.sameNode_iff_of_weight (begun.byRule rule) present
      (Rewriting.exhaust_eq_or_weight_lt rule (x :: held) x store)
  · exact not_congr (Rewriting.fired_exhaust_eq_zero_iff rule (x :: held) x store)

end

/-- A sum with a zero in it, inside an output and under a product with a one. -/
theorem session_simplify_rests_inside_output :
    let draft := mul (labelled "total" (add (ofRat 2) (ofRat 0))) (ofRat 1)
    let entered := ({} : Store).enter [] draft
    let simplified := entered.2.simplify Rule.all [entered.1] entered.1
    Session entered.2 [entered.1] ∧ Rests Rule.all simplified.1 ∧
      ¬SameNode entered.1 simplified.1 := by
  have inner : Drafted [] (add (ofRat 2) (ofRat 0)) :=
    .combine (.literal 2) (.literal 0) (show combine .add _ _ = .ok _ from rfl)
  have drafted : Drafted [] (mul (labelled "total" (add (ofRat 2) (ofRat 0))) (ofRat 1)) :=
    .combine (.output "total" inner) (.literal 1) (show combine .mul _ _ = .ok _ from rfl)
  have session := Session.start.enter drafted
  obtain ⟨bySimplify, _⟩ := session_simplify_rests session (List.mem_singleton_self _)
  obtain ⟨rests, _, returned, _⟩ := bySimplify Rule.all
  refine ⟨session, rests, fun same => ?_⟩
  have unmatched := returned.mp same .multiplicativeIdentity (by decide) _ .root
  exact absurd (congrArg Option.isSome unmatched) (by decide +kernel)

end ExactFormula
