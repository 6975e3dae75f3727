import ExactFormula.Rewrite.Weight
import ExactFormula.Store

/-!
# Simplification

A pass takes the rules in order and applies each of them to its first match,
again and again, until it matches nowhere.  Passes follow one another until
one of them changes nothing.  Every rewrite lowers the weight of the formula,
so this ends.

Each rewritten formula is entered into the store at once.  Meanwhile the
formulas with which the pass and the rule began are held as well.
-/

namespace ExactFormula

mutual

/-- Entering a draft does not change its weight. -/
theorem Store.weight_enter (held : List Formula) :
    ∀ (x : Formula) (store : Store), (store.enter held x).1.weight = x.weight
  | .literal none value, store => by
      cases found : store.pool.lookup? (Store.inUse held) value <;>
        simp [Store.enter, Store.intern, Store.internIn, Store.fresh, found]
  | .constant none name value, store => rfl
  | .output none name inner, store => by
      unfold Store.enter
      exact congrArg (· + 1) (Store.weight_enter held inner store)
  | .derived none op operands value, store => by
      unfold Store.enter
      exact congrArg (Formula.nodeWeight op) (Store.weightOf_enterAll held operands store)
  | .literal (some id) value, store => rfl
  | .constant (some id) name value, store => rfl
  | .output (some id) name inner, store => rfl
  | .derived (some id) op operands value, store => rfl

/-- Entering a list of drafts does not change the product of their weights. -/
theorem Store.weightOf_enterAll (held : List Formula) :
    ∀ (operands : List Formula) (store : Store),
      Formula.weightOf (store.enterAll held operands).1 = Formula.weightOf operands
  | [], store => rfl
  | x :: rest, store => by
      unfold Store.enterAll
      simp only [Formula.weightOf_cons]
      rw [Store.weight_enter held x store, Store.weightOf_enterAll]

end

/-- A formula, how many rules fired on the way to it, and the store it was entered into. -/
structure Rewriting where
  /-- The formula. -/
  formula : Formula
  /-- The number of rules that fired. -/
  fired : Nat
  /-- The store. -/
  store : Store

namespace Rewriting

/-- Replace first matches of a rule until there is none. -/
def exhaust
    (rule : Rule)
    (held : List Formula)
    (x : Formula)
    (store : Store) :
    Rewriting :=
  match _found : x.rewriteFirst? rule.apply with
  | none => ⟨x, 0, store⟩
  | some draft =>
      let entered := store.enter (x :: held) draft
      let rest :=
        exhaust rule held entered.1 (entered.2.record (.rewrite rule x entered.1))
      { rest with fired := 1 }
termination_by x.weight
decreasing_by
  rw [Store.weight_enter]
  exact Formula.weight_rewriteFirst?_lt (fun _ _ => Rule.weight_apply_lt) _found

/-- Apply one rule until it matches nowhere. -/
def byRule
    (rule : Rule)
    (held : List Formula)
    (x : Formula)
    (store : Store) :
    Rewriting :=
  exhaust rule (x :: held) x store

/-- Apply rules one after the other. -/
def inOrder
    (held : List Formula) :
    List Rule → Formula → Store → Rewriting
  | [], x, store => ⟨x, 0, store⟩
  | rule :: rules, x, store =>
      let first := byRule rule held x store
      let rest := inOrder held rules first.formula first.store
      { rest with fired := first.fired + rest.fired }

/-- One pass over the rules. -/
def pass
    (rules : List Rule)
    (held : List Formula)
    (x : Formula)
    (store : Store) :
    Rewriting :=
  inOrder (x :: held) rules x store

/-! ## A pass that fires lowers the weight -/

theorem weight_exhaust
    (rule : Rule)
    (held : List Formula)
    (x : Formula)
    (store : Store) :
    (exhaust rule held x store).formula.weight ≤ x.weight ∧
      ((exhaust rule held x store).fired ≠ 0 →
        (exhaust rule held x store).formula.weight < x.weight) := by
  fun_induction exhaust rule held x store with
  | case1 x store found => simp
  | case2 x store draft found entered rest inductionHypothesis =>
      have lowered : entered.1.weight < x.weight := by
        rw [Store.weight_enter]
        exact Formula.weight_rewriteFirst?_lt (fun _ _ => Rule.weight_apply_lt) found
      have lt := Nat.lt_of_le_of_lt inductionHypothesis.1 lowered
      exact ⟨Nat.le_of_lt lt, fun _ => lt⟩

theorem weight_inOrder
    (held : List Formula)
    (rules : List Rule)
    (x : Formula)
    (store : Store) :
    (inOrder held rules x store).formula.weight ≤ x.weight ∧
      ((inOrder held rules x store).fired ≠ 0 →
        (inOrder held rules x store).formula.weight < x.weight) := by
  induction rules generalizing x store with
  | nil => simp [inOrder]
  | cons rule rules inductionHypothesis =>
      unfold inOrder
      obtain ⟨first_le, first_lt⟩ := weight_exhaust rule (x :: held) x store
      obtain ⟨rest_le, rest_lt⟩ := inductionHypothesis
        (byRule rule held x store).formula (byRule rule held x store).store
      unfold byRule at *
      dsimp only
      refine ⟨Nat.le_trans rest_le first_le, fun fired => ?_⟩
      by_cases quiet : (exhaust rule (x :: held) x store).fired = 0
      · exact Nat.lt_of_lt_of_le (rest_lt (by omega)) first_le
      · exact Nat.lt_of_le_of_lt rest_le (first_lt quiet)

theorem weight_pass_lt
    {rules : List Rule}
    {held : List Formula}
    {x : Formula}
    {store : Store}
    (fired : (pass rules held x store).fired ≠ 0) :
    (pass rules held x store).formula.weight < x.weight :=
  (weight_inOrder (x :: held) rules x store).2 fired

/--
Run passes until one changes nothing, and record how many there were and how
often a rule fired, given the passes and hits so far.
-/
def settle
    (rules : List Rule)
    (held : List Formula)
    (x : Formula)
    (store : Store)
    (passes hits : Nat) :
    Formula × Store :=
  let round := pass rules held x store
  if round.fired = 0 then
    (round.formula, round.store.record (.settled (passes + 1) hits))
  else settle rules held round.formula round.store (passes + 1) (hits + round.fired)
termination_by x.weight
decreasing_by
  rename_i fired
  exact weight_pass_lt fired

end Rewriting

namespace Store

/-- Simplify a formula with the given rules. -/
def simplify
    (rules : List Rule)
    (held : List Formula)
    (x : Formula)
    (store : Store) :
    Formula × Store :=
  Rewriting.settle rules held x store 0 0

end Store
end ExactFormula
