import ExactFormula.Proofs.Rewrite.Relabelling
import ExactFormula.Rewrite.Simplify
import Mathlib.Logic.Basic

/-!
# Rewriting in lockstep

Two formulas that correspond are rewritten in two stores.  If a rule matches in both
of them or in none, and entering and recording keep what the stores have in common,
then the loops go in lockstep: as many rules fire on both sides, and what comes out
corresponds again.
-/

namespace ExactFormula

theorem rel_of_map_eq
    {α β γ : Type}
    {f : α → γ}
    {g : β → γ}
    {found : Option α}
    {other : Option β}
    (same : found.map f = other.map g) :
    Option.Rel (fun x y => f x = g y) found other := by
  cases found with
  | none =>
      cases other with
      | none => exact .none
      | some y => cases same
  | some x =>
      cases other with
      | none => cases same
      | some y => exact .some (Option.some.inj same)

namespace Rewriting

/-- A rule matches in both of two formulas that correspond, or in none of them. -/
def MatchesAlike (formulas : Formula → Formula → Prop) (rule : Rule) : Prop :=
  ∀ {x y}, formulas x y →
    Option.Rel formulas (x.rewriteFirst? rule.apply) (y.rewriteFirst? rule.apply)

/-- A rule matches alike in a formula and in its relabelling, whatever identities there are. -/
theorem matchesAlike_relabel
    {leaf : String → Rat → Formula}
    (keeps : Formula.KeepsValues leaf)
    {rule : Rule}
    (unread : rule = .signCollapse → ∀ name value, (leaf name value).literalValue? = none) :
    MatchesAlike (fun x y => x.relabel leaf = y.shape) rule := by
  intro x y same
  refine rel_of_map_eq ?_
  calc (x.rewriteFirst? rule.apply).map (Formula.relabel leaf)
      = (x.relabel leaf).rewriteFirst? rule.apply :=
        (Formula.rewriteFirst?_relabel keeps (Rule.apply_relabel keeps unread) x).symm
    _ = y.shape.rewriteFirst? rule.apply := by rw [same]
    _ = (y.rewriteFirst? rule.apply).map Formula.shape := Formula.rewriteFirst?_shape rule y

/-- Whatever is done to a formula and a store while rules are applied keeps what two runs share. -/
structure Lockstep
    (formulas : Formula → Formula → Prop)
    (helds : List Formula → List Formula → Prop)
    (stores : Store → Store → Prop) :
    Prop where
  /-- One more formula is held. -/
  hold : ∀ {x y held others}, formulas x y → helds held others → helds (x :: held) (y :: others)
  /-- A draft is entered. -/
  enter : ∀ {x y held others store other}, helds held others → stores store other →
    formulas x y →
    formulas (store.enter held x).1 (other.enter others y).1 ∧
      stores (store.enter held x).2 (other.enter others y).2
  /-- A rewrite is recorded. -/
  rewrite : ∀ {store other before after first second} (rule : Rule), stores store other →
    formulas before first → formulas after second →
    stores (store.record (.rewrite rule before after)) (other.record (.rewrite rule first second))
  /-- The end of a simplification is recorded. -/
  settled : ∀ {store other} (passes hits : Nat), stores store other →
    stores (store.record (.settled passes hits)) (other.record (.settled passes hits))

/-- Two rewritings have corresponding results, and as many rules fired in them. -/
structure Alike
    (formulas : Formula → Formula → Prop)
    (stores : Store → Store → Prop)
    (first second : Rewriting) :
    Prop where
  formula : formulas first.formula second.formula
  fired : first.fired = second.fired
  store : stores first.store second.store

namespace Lockstep

section

variable
  {formulas : Formula → Formula → Prop}
  {helds : List Formula → List Formula → Prop}
  {stores : Store → Store → Prop}
  {rule : Rule}
  {rules : List Rule}
  {x y : Formula}
  {held others : List Formula}
  {store other : Store}

/-- A rule is applied as often on both sides until it matches nowhere. -/
theorem exhaust
    (lockstep : Lockstep formulas helds stores)
    (matching : MatchesAlike formulas rule)
    (holds : helds held others) :
    ∀ {y : Formula} {other : Store}, formulas x y → stores store other →
      Alike formulas stores (Rewriting.exhaust rule held x store)
        (Rewriting.exhaust rule others y other) := by
  fun_induction Rewriting.exhaust rule held x store with
  | case1 x store found =>
      intro y other alike shared
      have matched := matching alike
      rw [found] at matched
      fun_cases Rewriting.exhaust rule others y other with
      | case1 => exact ⟨alike, rfl, shared⟩
      | case2 _ present => rw [present] at matched; cases matched
  | case2 x store draft found entered =>
      rename_i rest inductionHypothesis
      intro y other alike shared
      have matched := matching alike
      rw [found] at matched
      fun_cases Rewriting.exhaust rule others y other with
      | case1 absent => rw [absent] at matched; cases matched
      | case2 twin present =>
          rw [present] at matched
          cases matched with
          | some drafts =>
              obtain ⟨results, kept⟩ := lockstep.enter (lockstep.hold alike holds) shared drafts
              obtain ⟨formula, _, store⟩ :=
                inductionHypothesis results (lockstep.rewrite rule kept alike results)
              exact ⟨formula, rfl, store⟩

theorem byRule
    (lockstep : Lockstep formulas helds stores)
    (matching : MatchesAlike formulas rule)
    (holds : helds held others)
    (alike : formulas x y)
    (shared : stores store other) :
    Alike formulas stores (Rewriting.byRule rule held x store)
      (Rewriting.byRule rule others y other) :=
  lockstep.exhaust matching (lockstep.hold alike holds) alike shared

/-- Rules are applied one after the other, each as often on both sides. -/
theorem inOrder
    (lockstep : Lockstep formulas helds stores)
    (matching : ∀ rule ∈ rules, MatchesAlike formulas rule)
    (holds : helds held others)
    (alike : formulas x y)
    (shared : stores store other) :
    Alike formulas stores (Rewriting.inOrder held rules x store)
      (Rewriting.inOrder others rules y other) := by
  induction rules generalizing x y store other with
  | nil => exact ⟨alike, rfl, shared⟩
  | cons rule rules inductionHypothesis =>
      rw [List.forall_mem_cons] at matching
      have first := lockstep.byRule matching.1 holds alike shared
      have rest := inductionHypothesis matching.2 first.formula first.store
      exact ⟨rest.formula, congrArg₂ (· + ·) first.fired rest.fired, rest.store⟩

theorem pass
    (lockstep : Lockstep formulas helds stores)
    (matching : ∀ rule ∈ rules, MatchesAlike formulas rule)
    (holds : helds held others)
    (alike : formulas x y)
    (shared : stores store other) :
    Alike formulas stores (Rewriting.pass rules held x store)
      (Rewriting.pass rules others y other) :=
  lockstep.inOrder matching (lockstep.hold alike holds) alike shared

/-- As many passes are run on both sides, with as many hits. -/
theorem settle
    (lockstep : Lockstep formulas helds stores)
    (matching : ∀ rule ∈ rules, MatchesAlike formulas rule)
    (holds : helds held others)
    (passes hits : Nat) :
    ∀ {y : Formula} {other : Store}, formulas x y → stores store other →
      formulas (Rewriting.settle rules held x store passes hits).1
          (Rewriting.settle rules others y other passes hits).1 ∧
        stores (Rewriting.settle rules held x store passes hits).2
          (Rewriting.settle rules others y other passes hits).2 := by
  fun_induction Rewriting.settle rules held x store passes hits with
  | case1 x store passes hits round =>
      rename_i quiet
      intro y other alike shared
      have rounds := lockstep.pass matching holds alike shared
      rw [Rewriting.settle, if_pos (rounds.fired ▸ quiet)]
      exact ⟨rounds.formula, lockstep.settled (passes + 1) hits rounds.store⟩
  | case2 x store passes hits round =>
      rename_i fired inductionHypothesis
      intro y other alike shared
      have rounds := lockstep.pass matching holds alike shared
      fun_cases Rewriting.settle rules others y other passes hits with
      | case1 _ quiet => exact absurd (rounds.fired.trans quiet) fired
      | case2 => rw [← rounds.fired]; exact inductionHypothesis rounds.formula rounds.store

/-- Simplification goes in lockstep. -/
theorem simplify
    (lockstep : Lockstep formulas helds stores)
    (matching : ∀ rule ∈ rules, MatchesAlike formulas rule)
    (holds : helds held others)
    (alike : formulas x y)
    (shared : stores store other) :
    formulas (store.simplify rules held x).1 (other.simplify rules others y).1 ∧
      stores (store.simplify rules held x).2 (other.simplify rules others y).2 :=
  lockstep.settle matching holds 0 0 alike shared

end

end Lockstep
end Rewriting
end ExactFormula
