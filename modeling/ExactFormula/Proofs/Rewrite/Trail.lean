import ExactFormula.Proofs.Rewrite.Relabelling
import ExactFormula.Rewrite.Simplify
import Mathlib.Logic.Relation

/-!
# The trail of a simplification

What a simplification logs is a trail: every rewrite starts from the formula
with which the one before it ended, and gives a first match of one of the rules
its replacement.  Entering that formula into the store logs literals only.
-/

namespace ExactFormula

/-- A literal was asked for. -/
def Event.IsLiteral : Event → Prop
  | .literal _ _ => True
  | _ => False

/-- One of the rules gives its first match a replacement; identities are left open. -/
def Rewrites (rules : List Rule) (x y : Formula) : Prop :=
  ∃ rule ∈ rules, ∃ draft, x.rewriteFirst? rule.apply = some draft ∧ y.shape = draft.shape

/-- A formula comes from another by some rewrites. -/
def Reaches (rules : List Rule) : Formula → Formula → Prop :=
  Relation.ReflTransGen (Rewrites rules)

/-- The events that are logged while rules lead from one formula to another. -/
inductive Trail (rules : List Rule) : Formula → List Event → Formula → Prop
  /-- Nothing happens. -/
  | rest {x : Formula} : Trail rules x [] x
  /-- A literal is looked up on the way. -/
  | literal
      {x y : Formula}
      {event : Event}
      {events : List Event} :
      event.IsLiteral → Trail rules x events y → Trail rules x (event :: events) y
  /-- A rule replaces its first match, and the result is entered. -/
  | rewrite
      {rule : Rule}
      {x draft y z : Formula}
      {events : List Event} :
      rule ∈ rules → x.rewriteFirst? rule.apply = some draft → y.shape = draft.shape →
      Trail rules y events z → Trail rules x (.rewrite rule x y :: events) z

namespace Trail

variable {rules : List Rule} {x y z : Formula} {events later : List Event}

theorem append
    (first : Trail rules x events y)
    (second : Trail rules y later z) :
    Trail rules x (events ++ later) z := by
  induction first with
  | rest => exact second
  | literal isLiteral _ inductionHypothesis => exact .literal isLiteral (inductionHypothesis second)
  | rewrite member rewritten same _ inductionHypothesis =>
      exact .rewrite member rewritten same (inductionHypothesis second)

theorem mono
    {more : List Rule}
    (trail : Trail rules x events y)
    (included : ∀ rule ∈ rules, rule ∈ more) :
    Trail more x events y := by
  induction trail with
  | rest => exact .rest
  | literal isLiteral _ inductionHypothesis => exact .literal isLiteral inductionHypothesis
  | rewrite member rewritten same _ inductionHypothesis =>
      exact .rewrite (included _ member) rewritten same inductionHypothesis

/-- Looking up literals leads nowhere. -/
theorem of_literals (literals : ∀ event ∈ events, event.IsLiteral) : Trail rules x events x := by
  induction events with
  | nil => exact .rest
  | cons event events inductionHypothesis =>
      rw [List.forall_mem_cons] at literals
      exact .literal literals.1 (inductionHypothesis literals.2)

/-- A trail leads to formulas that the rules reach. -/
theorem reaches (trail : Trail rules x events y) : Reaches rules x y := by
  induction trail with
  | rest => exact .refl
  | literal _ _ inductionHypothesis => exact inductionHypothesis
  | rewrite member rewritten same _ inductionHypothesis =>
      exact .head ⟨_, member, _, rewritten, same⟩ inductionHypothesis

/-- Where a trail logs a rewrite, it has reached the formula that is rewritten. -/
theorem reaches_of_mem
    {rule : Rule}
    {before after : Formula}
    (trail : Trail rules x events y)
    (logged : .rewrite rule before after ∈ events) :
    Reaches rules x before ∧ Reaches rules x after := by
  induction trail with
  | rest => simp at logged
  | literal isLiteral _ inductionHypothesis =>
      obtain rfl | earlier := List.mem_cons.mp logged
      · exact isLiteral.elim
      · exact inductionHypothesis earlier
  | @rewrite _ x _ y _ _ member rewritten same _ inductionHypothesis =>
      have first : Reaches rules x y := .single ⟨_, member, _, rewritten, same⟩
      obtain equal | earlier := List.mem_cons.mp logged
      · cases equal
        exact ⟨.refl, first⟩
      · obtain ⟨reachesBefore, reachesAfter⟩ := inductionHypothesis earlier
        exact ⟨first.trans reachesBefore, first.trans reachesAfter⟩

end Trail

/-! ## What the store logs -/

namespace Store

/-- The events that one store has logged beyond another. -/
def since (earlier later : Store) : List Event :=
  later.log.drop earlier.log.length

/-- What was logged after a store is what stands behind its own log. -/
theorem since_eq
    {earlier later : Store}
    {events : List Event}
    (logged : later.log = earlier.log ++ events) :
    since earlier later = events := by
  rw [since, logged, List.drop_left]

/-- A store has logged what another has, and literals after that. -/
def LogsLiterals (earlier later : Store) : Prop :=
  ∃ events, later.log = earlier.log ++ events ∧ ∀ event ∈ events, event.IsLiteral

theorem logsLiterals_of_log_eq {earlier later : Store} (same : later.log = earlier.log) :
    LogsLiterals earlier later :=
  ⟨[], by rw [same, List.append_nil], by simp⟩

theorem LogsLiterals.trans
    {first second third : Store}
    (earlier : LogsLiterals first second)
    (later : LogsLiterals second third) :
    LogsLiterals first third := by
  obtain ⟨events, logged, literals⟩ := earlier
  obtain ⟨others, further, others_literals⟩ := later
  refine ⟨events ++ others, by rw [further, logged, List.append_assoc], ?_⟩
  intro event member
  exact (List.mem_append.mp member).elim (literals event) (others_literals event)

/-- Interning logs one literal. -/
theorem logsLiterals_intern (held : List Formula) (value : Rat) (store : Store) :
    LogsLiterals store (store.intern held value).2 := by
  cases found : store.pool.lookup? (inUse held) value with
  | some id => exact ⟨[.literal true value], by simp [intern, internIn, found, record],
      by simp [Event.IsLiteral]⟩
  | none => exact ⟨[.literal false value], by simp [intern, internIn, found, record, fresh],
      by simp [Event.IsLiteral]⟩

mutual

/-- Entering a draft logs literals only. -/
theorem logsLiterals_enter (held : List Formula) :
    ∀ (x : Formula) (store : Store), LogsLiterals store (store.enter held x).2
  | .literal none value, store => logsLiterals_intern held value store
  | .constant none _ _, _ => logsLiterals_of_log_eq rfl
  | .output none _ inner, store => logsLiterals_enter held inner store
  | .derived none _ operands _, store => logsLiterals_enterAll held operands store
  | .literal (some _) _, _ => logsLiterals_of_log_eq rfl
  | .constant (some _) _ _, _ => logsLiterals_of_log_eq rfl
  | .output (some _) _ _, _ => logsLiterals_of_log_eq rfl
  | .derived (some _) _ _ _, _ => logsLiterals_of_log_eq rfl

/-- Entering a list of drafts logs literals only. -/
theorem logsLiterals_enterAll (held : List Formula) :
    ∀ (operands : List Formula) (store : Store),
      LogsLiterals store (store.enterAll held operands).2
  | [], _ => logsLiterals_of_log_eq rfl
  | x :: rest, store =>
      (logsLiterals_enter held x store).trans
        (logsLiterals_enterAll ((store.enter held x).1 :: held) rest (store.enter held x).2)

end

end Store

/-! ## The trails of the loops -/

namespace Rewriting

/-- The rules lead from a formula to another, and the store has logged how. -/
def Follows
    (rules : List Rule)
    (x : Formula)
    (earlier : Store)
    (y : Formula)
    (later : Store) :
    Prop :=
  ∃ events, later.log = earlier.log ++ events ∧ Trail rules x events y

variable {rules : List Rule} {x y z : Formula} {first second third : Store}

theorem Follows.trans
    (earlier : Follows rules x first y second)
    (later : Follows rules y second z third) :
    Follows rules x first z third := by
  obtain ⟨events, logged, trail⟩ := earlier
  obtain ⟨others, further, rest⟩ := later
  exact ⟨events ++ others, by rw [further, logged, List.append_assoc], trail.append rest⟩

theorem Follows.mono
    {more : List Rule}
    (follows : Follows rules x first y second)
    (included : ∀ rule ∈ rules, rule ∈ more) :
    Follows more x first y second := by
  obtain ⟨events, logged, trail⟩ := follows
  exact ⟨events, logged, trail.mono included⟩

theorem Follows.refl : Follows rules x first x first :=
  ⟨[], (List.append_nil _).symm, .rest⟩

/-- What follows a trail is reached by the rules. -/
theorem Follows.reaches (follows : Follows rules x first y second) : Reaches rules x y := by
  obtain ⟨_, _, trail⟩ := follows
  exact trail.reaches

/-- One rewrite, with its result entered and recorded. -/
theorem follows_rewrite
    {rule : Rule}
    {draft : Formula}
    (rewritten : x.rewriteFirst? rule.apply = some draft)
    (held : List Formula)
    (store : Store) :
    Follows [rule] x store (store.enter held draft).1
      ((store.enter held draft).2.record (.rewrite rule x (store.enter held draft).1)) := by
  obtain ⟨events, logged, literals⟩ := Store.logsLiterals_enter held draft store
  refine ⟨events ++ [.rewrite rule x (store.enter held draft).1], ?_, ?_⟩
  · rw [Store.record, logged, List.append_assoc]
  · exact (Trail.of_literals literals).append
      (.rewrite (List.mem_singleton_self rule) rewritten (Store.shape_enter held draft store) .rest)

/-- Exhausting a rule logs each rewrite and follows it. -/
theorem follows_exhaust
    (rule : Rule)
    (held : List Formula)
    (x : Formula)
    (store : Store) :
    Follows [rule] x store (exhaust rule held x store).formula (exhaust rule held x store).store := by
  fun_induction exhaust rule held x store with
  | case1 x store found => exact .refl
  | case2 x store draft found entered rest inductionHypothesis =>
      exact (follows_rewrite found (x :: held) store).trans inductionHypothesis

/-- Exhausting rules in order follows the trails of all of them. -/
theorem follows_inOrder
    (held : List Formula)
    (rules : List Rule)
    (x : Formula)
    (store : Store) :
    Follows rules x store (inOrder held rules x store).formula (inOrder held rules x store).store := by
  induction rules generalizing x store with
  | nil => exact .refl
  | cons rule rules inductionHypothesis =>
      have first := follows_exhaust rule (x :: held) x store
      have rest := inductionHypothesis
        (byRule rule held x store).formula (byRule rule held x store).store
      exact (first.mono (by simp)).trans (rest.mono fun _ => List.mem_cons_of_mem rule)

/-- Simplification leaves a trail, and says in the end how it came to rest. -/
theorem follows_settle
    (rules : List Rule)
    (held : List Formula)
    (x : Formula)
    (store : Store)
    (passes hits : Nat) :
    ∃ (last : Store) (allPasses allHits : Nat),
      Follows rules x store (settle rules held x store passes hits).1 last ∧
        (settle rules held x store passes hits).2 = last.record (.settled allPasses allHits) := by
  fun_induction settle rules held x store passes hits with
  | case1 x store passes hits round quiet =>
      exact ⟨round.store, _, _, follows_inOrder (x :: held) rules x store, rfl⟩
  | case2 x store passes hits round fired inductionHypothesis =>
      obtain ⟨last, allPasses, allHits, follows, recorded⟩ := inductionHypothesis
      exact ⟨last, allPasses, allHits,
        (follows_inOrder (x :: held) rules x store).trans follows, recorded⟩

end Rewriting

/-- What a simplification logs is the trail from the formula to the result, and a summary. -/
theorem Store.trail_simplify
    (rules : List Rule)
    (held : List Formula)
    (x : Formula)
    (store : Store) :
    ∃ events passes hits,
      store.since (store.simplify rules held x).2 = events ++ [.settled passes hits] ∧
        Trail rules x events (store.simplify rules held x).1 := by
  obtain ⟨last, passes, hits, ⟨events, logged, trail⟩, recorded⟩ :=
    Rewriting.follows_settle rules held x store 0 0
  refine ⟨events, passes, hits, Store.since_eq ?_, trail⟩
  rw [Store.simplify, recorded, Store.record, logged, List.append_assoc]

end ExactFormula
