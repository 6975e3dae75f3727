import ExactFormula.Proofs.Rewrite.Relabelling
import ExactFormula.Rewrite.Simplify

/-!
# Simplification without a store

The store gives identities to what a rewrite has built, and nothing else about
the result depends on it.  The functions here simplify a formula on its own, and
simplification in a store gives the same up to identities.
-/

namespace ExactFormula
namespace Formula

/-- Replace first matches of a rule until there is none. -/
def exhausted (rule : Rule) (x : Formula) : Formula :=
  match _found : x.rewriteFirst? rule.apply with
  | none => x
  | some y => exhausted rule y
termination_by x.weight
decreasing_by exact weight_rewriteFirst?_lt (fun _ _ => Rule.weight_apply_lt) _found

/-- Exhaust rules one after the other. -/
def passed : List Rule → Formula → Formula
  | [], x => x
  | rule :: rules, x => passed rules (exhausted rule x)

section

variable {rule : Rule} {x y : Formula}

theorem exhausted_of_rewriteFirst?_eq_none (quiet : x.rewriteFirst? rule.apply = none) :
    exhausted rule x = x := by
  rw [exhausted]
  split
  · rfl
  · simp_all

theorem exhausted_of_rewriteFirst?_eq_some (rewritten : x.rewriteFirst? rule.apply = some y) :
    exhausted rule x = exhausted rule y := by
  rw [exhausted]
  split
  · simp_all
  · simp_all

/-- A rule that is exhausted matches nowhere. -/
theorem rewriteFirst?_exhausted (rule : Rule) (x : Formula) :
    (exhausted rule x).rewriteFirst? rule.apply = none := by
  fun_induction exhausted rule x with
  | case1 x quiet => exact quiet
  | case2 x y found inductionHypothesis => exact inductionHypothesis

/-- A rule that changes a formula lowers its weight. -/
theorem exhausted_eq_or_weight_lt (rule : Rule) (x : Formula) :
    exhausted rule x = x ∨ (exhausted rule x).weight < x.weight := by
  fun_induction exhausted rule x with
  | case1 x quiet => exact .inl rfl
  | case2 x y found inductionHypothesis =>
      have lowered : y.weight < x.weight :=
        weight_rewriteFirst?_lt (fun _ _ => Rule.weight_apply_lt) found
      obtain same | lower := inductionHypothesis
      · rw [same]
        exact .inr lowered
      · exact .inr (Nat.lt_trans lower lowered)

end

/-- A pass that changes a formula lowers its weight. -/
theorem passed_eq_or_weight_lt (rules : List Rule) (x : Formula) :
    passed rules x = x ∨ (passed rules x).weight < x.weight := by
  induction rules generalizing x with
  | nil => exact .inl rfl
  | cons rule rules inductionHypothesis =>
      rw [passed]
      obtain same | lower := exhausted_eq_or_weight_lt rule x
      · rw [same]
        exact inductionHypothesis x
      · obtain quiet | further := inductionHypothesis (exhausted rule x)
        · rw [quiet]
          exact .inr lower
        · exact .inr (Nat.lt_trans further lower)

/-- Run passes as long as they lower the weight. -/
def simplified (rules : List Rule) (x : Formula) : Formula :=
  if (passed rules x).weight < x.weight then simplified rules (passed rules x) else x
termination_by x.weight

/-- Simplification may begin with a pass. -/
theorem simplified_passed (rules : List Rule) (x : Formula) :
    simplified rules (passed rules x) = simplified rules x := by
  obtain same | lower := passed_eq_or_weight_lt rules x
  · rw [same]
  · symm
    rw [simplified, if_pos lower]

/-! ## Fixed points -/

/-- A pass that changes nothing found no match of any rule. -/
theorem rewriteFirst?_eq_none_of_passed_eq
    {rules : List Rule}
    {x : Formula}
    (same : passed rules x = x) :
    ∀ rule ∈ rules, x.rewriteFirst? rule.apply = none := by
  induction rules with
  | nil => simp
  | cons rule rules inductionHypothesis =>
      rw [passed] at same
      have first : exhausted rule x = x := by
        apply (exhausted_eq_or_weight_lt rule x).resolve_right
        intro lower
        obtain equal | further := passed_eq_or_weight_lt rules (exhausted rule x)
        · rw [equal] at same
          rw [same] at lower
          exact Nat.lt_irrefl _ lower
        · rw [same] at further
          exact Nat.lt_asymm lower further
      rw [first] at same
      rw [List.forall_mem_cons]
      refine ⟨?_, inductionHypothesis same⟩
      rw [← first]
      exact rewriteFirst?_exhausted rule x

theorem passed_eq_self
    {rules : List Rule}
    {x : Formula}
    (quiet : ∀ rule ∈ rules, x.rewriteFirst? rule.apply = none) :
    passed rules x = x := by
  induction rules with
  | nil => rfl
  | cons rule rules inductionHypothesis =>
      rw [List.forall_mem_cons] at quiet
      rw [passed, exhausted_of_rewriteFirst?_eq_none quiet.1]
      exact inductionHypothesis quiet.2

theorem simplified_eq_self
    {rules : List Rule}
    {x : Formula}
    (quiet : ∀ rule ∈ rules, x.rewriteFirst? rule.apply = none) :
    simplified rules x = x := by
  rw [simplified, passed_eq_self quiet, if_neg (Nat.lt_irrefl _)]

end Formula

/-! ## Simplification in a store -/

namespace Rewriting

/-- A rule that is exhausted in a store gives what it gives without one. -/
theorem shape_exhaust
    (rule : Rule)
    (held : List Formula)
    (x : Formula)
    (store : Store) :
    (exhaust rule held x store).formula.shape = Formula.exhausted rule x.shape := by
  fun_induction exhaust rule held x store with
  | case1 x store found =>
      refine (Formula.exhausted_of_rewriteFirst?_eq_none ?_).symm
      rw [Formula.rewriteFirst?_shape, found, Option.map_none]
  | case2 x store draft found entered rest inductionHypothesis =>
      refine inductionHypothesis.trans ?_
      rw [Store.shape_enter]
      refine (Formula.exhausted_of_rewriteFirst?_eq_some ?_).symm
      rw [Formula.rewriteFirst?_shape, found, Option.map_some]

/-- A rule that did not fire left the formula as it was. -/
theorem exhaust_eq_self
    (rule : Rule)
    (held : List Formula)
    (x : Formula)
    (store : Store) :
    (exhaust rule held x store).fired = 0 → (exhaust rule held x store).formula = x := by
  fun_cases exhaust rule held x store with
  | case1 found => exact fun _ => rfl
  | case2 draft found entered rest =>
      intro quiet
      exact absurd quiet Nat.one_ne_zero

/-- A pass in which no rule fired left the formula as it was. -/
theorem inOrder_eq_self
    {held : List Formula}
    {rules : List Rule}
    {x : Formula}
    {store : Store}
    (quiet : (inOrder held rules x store).fired = 0) :
    (inOrder held rules x store).formula = x := by
  induction rules generalizing x store with
  | nil => rfl
  | cons rule rules inductionHypothesis =>
      rw [inOrder] at quiet ⊢
      dsimp only at quiet ⊢
      have first : (byRule rule held x store).fired = 0 := by omega
      have same : (byRule rule held x store).formula = x :=
        exhaust_eq_self rule (x :: held) x store first
      rw [inductionHypothesis (by omega), same]

/-- A pass in a store gives what it gives without one. -/
theorem shape_inOrder
    (held : List Formula)
    (rules : List Rule)
    (x : Formula)
    (store : Store) :
    (inOrder held rules x store).formula.shape = Formula.passed rules x.shape := by
  induction rules generalizing x store with
  | nil => rfl
  | cons rule rules inductionHypothesis =>
      rw [Formula.passed, ← shape_exhaust rule (x :: held) x store]
      exact inductionHypothesis _ _

/-- Passes in a store give what they give without one. -/
theorem shape_settle
    (rules : List Rule)
    (held : List Formula)
    (x : Formula)
    (store : Store)
    (passes hits : Nat) :
    (settle rules held x store passes hits).1.shape = Formula.simplified rules x.shape := by
  fun_induction settle rules held x store passes hits with
  | case1 x store passes hits round quiet =>
      have passed := shape_inOrder (x :: held) rules x store
      rw [inOrder_eq_self quiet] at passed
      rw [Formula.simplified, ← passed, if_neg (Nat.lt_irrefl _)]
      exact congrArg Formula.shape (inOrder_eq_self quiet)
  | case2 x store passes hits round fired inductionHypothesis =>
      rw [inductionHypothesis, ← Formula.simplified_passed rules x.shape]
      exact congrArg (Formula.simplified rules) (shape_inOrder (x :: held) rules x store)

end Rewriting

/-- Simplification in a store gives, up to identities, what it gives without one. -/
theorem Store.shape_simplify
    (rules : List Rule)
    (held : List Formula)
    (x : Formula)
    (store : Store) :
    (store.simplify rules held x).1.shape = Formula.simplified rules x.shape :=
  Rewriting.shape_settle rules held x store 0 0

end ExactFormula
