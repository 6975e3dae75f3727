import ExactFormula.Proofs.Rewrite.Trail
import Mathlib.Order.WellFounded

/-!
# Termination

The weight of a formula falls with every rewrite, at whatever node and by
whatever rule, so it bounds the number of rewrites from the start.
-/

namespace ExactFormula

open Formula

/-- An event is a rewrite. -/
def Event.isRewrite : Event → Bool
  | .rewrite _ _ _ => true
  | _ => false

theorem weight_lt_of_rewrites
    {rules : List Rule}
    {x y : Formula}
    (rewrites : Rewrites rules x y) :
    y.weight < x.weight := by
  obtain ⟨rule, _, draft, rewritten, same⟩ := rewrites
  have equal : y.weight = draft.weight := by
    rw [← weight_relabel keepsValues_named y, ← weight_relabel keepsValues_named draft]
    exact congrArg weight same
  rw [equal]
  exact weight_rewriteFirst?_lt (fun _ _ => Rule.weight_apply_lt) rewritten

/-- Rules cannot be applied for ever, in whatever order. -/
theorem wellFounded_rewrites (rules : List Rule) :
    WellFounded fun later earlier => Rewrites rules earlier later :=
  (InvImage.wf weight Nat.lt_wfRel.wf).mono fun _ _ => weight_lt_of_rewrites

/-- Every rewrite of a trail is paid for by the weight that is lost on the way. -/
theorem Trail.countP_add_weight_le
    {rules : List Rule}
    {x y : Formula}
    {events : List Event}
    (trail : Trail rules x events y) :
    events.countP Event.isRewrite + y.weight ≤ x.weight := by
  induction trail with
  | rest => simp
  | @literal _ _ event _ isLiteral _ inductionHypothesis =>
      cases event with
      | literal found value =>
          rw [List.countP_cons_of_neg (by simp [Event.isRewrite])]
          exact inductionHypothesis
      | _ => exact isLiteral.elim
  | rewrite member rewritten same _ inductionHypothesis =>
      rw [List.countP_cons_of_pos rfl]
      have lower := weight_lt_of_rewrites ⟨_, member, _, rewritten, same⟩
      omega

/--
One measure falls with every rewrite: where a rule replaces its first match, and
where it replaces a node anywhere.  Rewriting is well founded therefore, and a
simplification logs at most as many rewrites as weight is lost.
-/
theorem rewriting_terminates
    (rules : List Rule)
    (held : List Formula)
    (x : Formula)
    (store : Store) :
    (∀ (rule : Rule) (before draft : Formula),
        before.rewriteFirst? rule.apply = some draft → draft.weight < before.weight) ∧
      (∀ (rule : Rule) (node replacement before draft : Formula),
        rule.apply node = some replacement → Replaces node replacement before draft →
          draft.weight < before.weight) ∧
      (WellFounded fun later earlier => Rewrites rules earlier later) ∧
      (store.since (store.simplify rules held x).2).countP Event.isRewrite +
        (store.simplify rules held x).1.weight ≤ x.weight := by
  refine ⟨?_, ?_, wellFounded_rewrites rules, ?_⟩
  · intro rule before draft rewritten
    exact weight_rewriteFirst?_lt (fun _ _ => Rule.weight_apply_lt) rewritten
  · intro rule node replacement before draft matched replaces
    exact weight_lt_of_replaces (Rule.weight_apply_lt matched) replaces
  · obtain ⟨events, passes, hits, logged, trail⟩ := store.trail_simplify rules held x
    rw [logged, List.countP_append, List.countP_singleton]
    exact trail.countP_add_weight_le

end ExactFormula
