import ExactFormula.Proofs.Display.Checked
import ExactFormula.Proofs.Rewrite.Checked
import ExactFormula.Proofs.Rewrite.Trail

/-!
# The structure of formulas

Whatever is done with a store, every formula in it is well formed.  So the checks
of operand counts never fail while formulas are rewritten, and no rendering comes
upon a chain that should have been flattened.
-/

namespace ExactFormula

open Formula

theorem Formula.WellFormed.of_rewrites
    {rules : List Rule}
    {x y : Formula}
    (wellFormed : WellFormed x)
    (rewrites : Rewrites rules x y) :
    WellFormed y := by
  obtain ⟨rule, _, draft, rewritten, same⟩ := rewrites
  exact wellFormed_of_shape_eq same
    (inherited_wellFormed.of_rewriteFirst?_eq_some wellFormed rewritten)

/-- Rules lead from well-formed formulas to well-formed formulas. -/
theorem Formula.WellFormed.of_reaches
    {rules : List Rule}
    {x y : Formula}
    (wellFormed : WellFormed x)
    (reaches : Reaches rules x y) :
    WellFormed y := by
  induction reaches with
  | refl => exact wellFormed
  | tail _ rewrites inductionHypothesis => exact inductionHypothesis.of_rewrites rewrites

/-- A formula is well formed, and no check fails when it is rewritten or rendered. -/
structure PassesChecks (x : Formula) : Prop where
  /-- Every node has the operands that its operator asks for. -/
  wellFormed : WellFormed x
  /-- At every node, no rule builds anything with a wrong number of operands. -/
  apply : ∀ (rule : Rule) (node : Formula), Occurs node x →
    rule.applyChecked node = .ok (rule.apply node)
  /-- No node is built anew with a wrong number of operands around a replacement. -/
  rewriteFirst : ∀ rule : Rule,
    x.rewriteFirstChecked? rule.applyChecked = .ok (x.rewriteFirst? rule.apply)
  /-- No rendering breaks off. -/
  render : ∀ settings : Settings, settings.renderChecked x = .ok (settings.render x)

theorem Formula.WellFormed.passesChecks {x : Formula} (wellFormed : WellFormed x) :
    PassesChecks x where
  wellFormed := wellFormed
  apply rule _ occurs := Rule.applyChecked_eq_ok (wellFormed.of_occurs occurs) rule
  rewriteFirst rule := rewriteFirstChecked?_eq_ok rule x wellFormed
  render settings := settings.renderChecked_eq_ok x wellFormed

/--
No check fails for a formula of a session: not for those that are held, not for
what is built on them, and not for any formula that rules reach from one of them,
however far they are applied.
-/
theorem session_passesChecks
    {store : Store}
    {held : List Formula}
    (session : Session store held) :
    (∀ x ∈ held, PassesChecks x) ∧
      (∀ draft, Drafted held draft → PassesChecks draft) ∧
      ∀ x ∈ held,
        (∀ rules y, Reaches rules x y → PassesChecks y) ∧
        (∀ rule others other, PassesChecks (Rewriting.byRule rule others x other).formula) ∧
        (∀ rules others other, PassesChecks (Rewriting.pass rules others x other).formula) ∧
        ∀ rules others (other : Store), PassesChecks (other.simplify rules others x).1 := by
  have inside := session.wellFormed
  have reached : ∀ x ∈ held, ∀ rules y, Reaches rules x y → PassesChecks y :=
    fun x member rules y reaches => ((inside x member).of_reaches reaches).passesChecks
  refine ⟨fun x member => (inside x member).passesChecks,
    fun draft drafted => (inherited_wellFormed.of_drafted drafted inside).passesChecks, ?_⟩
  intro x member
  refine ⟨reached x member, ?_, ?_, ?_⟩
  · intro rule others other
    exact reached x member [rule] _ (Rewriting.follows_exhaust rule (x :: others) x other).reaches
  · intro rules others other
    exact reached x member rules _
      (Rewriting.follows_inOrder (x :: others) rules x other).reaches
  · intro rules others other
    obtain ⟨events, passes, hits, logged, trail⟩ := other.trail_simplify rules others x
    exact reached x member rules _ trail.reaches

/--
The sum of four and a product of one with a sum: without the one, the inner sum
would stand directly in the outer one.
-/
theorem session_passesChecks_nested_sum :
    let inner := add (ofRat 2) (ofRat 3)
    let draft := add (ofRat 4) (mul (ofRat 1) inner)
    let entered := ({} : Store).enter [] draft
    Session entered.2 [entered.1] ∧
      PassesChecks (entered.2.simplify Rule.all [entered.1] entered.1).1 := by
  have inner : Drafted [] (add (ofRat 2) (ofRat 3)) :=
    .combine (.literal 2) (.literal 3) (show combine .add _ _ = .ok _ from rfl)
  have product : Drafted [] (mul (ofRat 1) (add (ofRat 2) (ofRat 3))) :=
    .combine (.literal 1) inner (show combine .mul _ _ = .ok _ from rfl)
  have drafted : Drafted [] (add (ofRat 4) (mul (ofRat 1) (add (ofRat 2) (ofRat 3)))) :=
    .combine (.literal 4) product (show combine .add _ _ = .ok _ from rfl)
  have session := Session.start.enter drafted
  obtain ⟨_, _, rewritten⟩ := session_passesChecks session
  obtain ⟨_, _, _, simplified⟩ := rewritten _ (List.mem_singleton_self _)
  exact ⟨session, simplified Rule.all _ _⟩

end ExactFormula
