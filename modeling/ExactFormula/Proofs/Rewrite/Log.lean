import ExactFormula.Display.Render
import ExactFormula.Proofs.Rewrite.FixedPoint
import ExactFormula.Proofs.Rewrite.Termination

/-!
# The log of a simplification

A simplification logs every rewrite, pass by pass and in each pass rule by rule, and in
the end how many passes there were and how often a rule fired in one.  In full text the
rewrites are a chain from the formula to the result.
-/

namespace ExactFormula

open Formula

namespace Event

/-- The full texts of the formulas before and after a rewrite. -/
def texts? : Event → Option (String × String)
  | rewrite _ before after => some (before.fullText, after.fullText)
  | _ => none

/-- A rewrite is among the events. -/
def anyRewrite (events : List Event) : Bool :=
  events.any isRewrite

end Event

/--
Pairs of texts lead from one text to another: each pair begins with the text with which
the one before it ends.
-/
def Linked : String → List (String × String) → String → Prop
  | first, [], last => first = last
  | first, (before, after) :: rest, last => before = first ∧ Linked after rest last

/-- A rule has been applied until it matches nowhere, and the events tell how. -/
structure Exhausts (rule : Rule) (x : Formula) (events : List Event) (y : Formula) : Prop where
  /-- The events are a trail of the rule. -/
  trail : Trail [rule] x events y
  /-- The rule does not match any more. -/
  exhausted : y.rewriteFirst? rule.apply = none

/-- Rules have been exhausted one after the other; each of them has events of its own. -/
inductive PassesOver : List Rule → Formula → List (List Event) → Formula → Prop
  /-- There are no rules left. -/
  | done {x : Formula} : PassesOver [] x [] x
  /-- A rule is exhausted, and the others follow. -/
  | next
      {rule : Rule}
      {rules : List Rule}
      {x y z : Formula}
      {events : List Event}
      {others : List (List Event)} :
      Exhausts rule x events y → PassesOver rules y others z →
      PassesOver (rule :: rules) x (events :: others) z

/-- Passes have followed one another until one of them rewrote nothing. -/
inductive SettlesBy (rules : List Rule) : Formula → List (List (List Event)) → Formula → Prop
  /-- A pass rewrites nothing, and it is the last one. -/
  | last
      {x y : Formula}
      {pass : List (List Event)} :
      PassesOver rules x pass y → pass.any Event.anyRewrite = false → SettlesBy rules x [pass] y
  /-- A pass rewrites something, and another one follows. -/
  | again
      {x y z : Formula}
      {pass : List (List Event)}
      {later : List (List (List Event))} :
      PassesOver rules x pass y → pass.any Event.anyRewrite = true → SettlesBy rules y later z →
      SettlesBy rules x (pass :: later) z

/-! ## What a trail logs -/

namespace Trail

variable {rules : List Rule} {x y : Formula} {events : List Event}

/-- In full text the rewrites of a trail are a chain. -/
theorem linked (trail : Trail rules x events y) :
    Linked x.fullText (events.filterMap Event.texts?) y.fullText := by
  induction trail with
  | rest => rfl
  | @literal _ _ event _ isLiteral _ inductionHypothesis =>
      cases event with
      | literal found value => exact inductionHypothesis
      | _ => exact isLiteral.elim
  | rewrite _ _ _ _ inductionHypothesis => exact ⟨rfl, inductionHypothesis⟩

theorem isLiteral_or_isRewrite (trail : Trail rules x events y) :
    ∀ event ∈ events, event.IsLiteral ∨ event.isRewrite := by
  induction trail with
  | rest => simp
  | literal isLiteral _ inductionHypothesis =>
      exact List.forall_mem_cons.mpr ⟨.inl isLiteral, inductionHypothesis⟩
  | rewrite _ _ _ _ inductionHypothesis =>
      exact List.forall_mem_cons.mpr ⟨.inr rfl, inductionHypothesis⟩

/-- A trail without a rewrite goes nowhere. -/
theorem eq_of_anyRewrite_eq_false
    (trail : Trail rules x events y)
    (quiet : Event.anyRewrite events = false) :
    x = y := by
  induction trail with
  | rest => rfl
  | literal _ _ inductionHypothesis =>
      rw [Event.anyRewrite, List.any_cons, Bool.or_eq_false_iff] at quiet
      exact inductionHypothesis quiet.2
  | rewrite _ _ _ _ _ => simp [Event.anyRewrite, Event.isRewrite] at quiet

/-- A trail with a rewrite does not come back, since weight is lost on the way. -/
theorem anyRewrite_eq_false_iff (trail : Trail rules x events y) :
    Event.anyRewrite events = false ↔ x = y := by
  refine ⟨trail.eq_of_anyRewrite_eq_false, ?_⟩
  rintro rfl
  have paid := trail.countP_add_weight_le
  have none : events.countP Event.isRewrite = 0 := by omega
  exact List.any_eq_false.mpr (List.countP_eq_zero.mp none)

end Trail

theorem filterMap_texts?_eq_nil_iff {events : List Event} :
    events.filterMap Event.texts? = [] ↔ Event.anyRewrite events = false := by
  rw [List.filterMap_eq_nil_iff, Event.anyRewrite, List.any_eq_false]
  refine forall₂_congr fun event _ => ?_
  cases event <;> simp [Event.texts?, Event.isRewrite]

section

variable {rules : List Rule} {x y : Formula} {pass : List (List Event)}
  {passes : List (List (List Event))}

/-- The events of a pass are one trail. -/
theorem PassesOver.trail (passesOver : PassesOver rules x pass y) :
    Trail rules x pass.flatten y := by
  induction passesOver with
  | done => exact .rest
  | next exhausts _ inductionHypothesis =>
      rw [List.flatten_cons]
      exact (exhausts.trail.mono (by simp)).append
        (inductionHypothesis.mono fun _ => List.mem_cons_of_mem _)

/-- So are those of all passes. -/
theorem SettlesBy.trail (settlesBy : SettlesBy rules x passes y) :
    Trail rules x passes.flatten.flatten y := by
  induction settlesBy with
  | last passesOver _ =>
      rw [List.flatten_singleton]
      exact passesOver.trail
  | again passesOver _ _ inductionHypothesis =>
      rw [List.flatten_cons, List.flatten_append]
      exact passesOver.trail.append inductionHypothesis

/-- The pass that rewrites nothing is the only one of its kind. -/
theorem SettlesBy.length_eq (settlesBy : SettlesBy rules x passes y) :
    passes.length = passes.countP (List.any · Event.anyRewrite) + 1 := by
  induction settlesBy with
  | last _ quiet => simp [quiet]
  | again _ fires _ inductionHypothesis =>
      rw [List.length_cons, inductionHypothesis, List.countP_cons, if_pos fires]

end

/-! ## What the loops log -/

namespace Rewriting

theorem rewriteFirst?_exhaust
    (rule : Rule)
    (held : List Formula)
    (x : Formula)
    (store : Store) :
    (exhaust rule held x store).formula.rewriteFirst? rule.apply = none := by
  fun_induction exhaust rule held x store with
  | case1 x store found => exact found
  | case2 x store draft found entered rest inductionHypothesis => exact inductionHypothesis

theorem fired_exhaust_eq_zero_or_one
    (rule : Rule)
    (held : List Formula)
    (x : Formula)
    (store : Store) :
    (exhaust rule held x store).fired = 0 ∨ (exhaust rule held x store).fired = 1 := by
  fun_cases exhaust rule held x store with
  | case1 found => exact .inl rfl
  | case2 draft found entered rest => exact .inr rfl

/-- A rule fires just if it changes the formula. -/
theorem fired_exhaust_eq_zero_iff_eq
    (rule : Rule)
    (held : List Formula)
    (x : Formula)
    (store : Store) :
    (exhaust rule held x store).fired = 0 ↔ x = (exhaust rule held x store).formula := by
  constructor
  · exact fun quiet => (exhaust_eq_self rule held x store quiet).symm
  · intro same
    by_contra fired
    exact Nat.ne_of_gt ((weight_exhaust rule held x store).2 fired) (congrArg weight same)

/-- A rule that is exhausted is counted once if it has logged a rewrite. -/
theorem exhausts_exhaust
    (rule : Rule)
    (held : List Formula)
    (x : Formula)
    (store : Store) :
    ∃ events, (exhaust rule held x store).store.log = store.log ++ events ∧
      Exhausts rule x events (exhaust rule held x store).formula ∧
      (exhaust rule held x store).fired = if Event.anyRewrite events then 1 else 0 := by
  obtain ⟨events, logged, trail⟩ := follows_exhaust rule held x store
  refine ⟨events, logged, ⟨trail, rewriteFirst?_exhaust rule held x store⟩, ?_⟩
  have quiet := (fired_exhaust_eq_zero_iff_eq rule held x store).trans
    trail.anyRewrite_eq_false_iff.symm
  obtain zero | one := fired_exhaust_eq_zero_or_one rule held x store
  · rw [zero, quiet.mp zero, if_neg Bool.false_ne_true]
  · have some : Event.anyRewrite events = true := by
      rw [← Bool.not_eq_false, ← quiet, one]
      exact Nat.one_ne_zero
    rw [one, some, if_pos rfl]

/-- A pass counts the rules that have logged a rewrite. -/
theorem passesOver_inOrder
    (held : List Formula)
    (rules : List Rule)
    (x : Formula)
    (store : Store) :
    ∃ pass, (inOrder held rules x store).store.log = store.log ++ pass.flatten ∧
      PassesOver rules x pass (inOrder held rules x store).formula ∧
      (inOrder held rules x store).fired = pass.countP Event.anyRewrite := by
  induction rules generalizing x store with
  | nil => exact ⟨[], (List.append_nil _).symm, .done, rfl⟩
  | cons rule rules inductionHypothesis =>
      obtain ⟨events, logged, exhausts, fired⟩ := exhausts_exhaust rule (x :: held) x store
      obtain ⟨others, further, passesOver, counted⟩ := inductionHypothesis
        (byRule rule held x store).formula (byRule rule held x store).store
      refine ⟨events :: others, ?_, .next exhausts passesOver, ?_⟩
      · rw [inOrder, further, byRule, logged, List.flatten_cons, List.append_assoc]
      · rw [inOrder, counted, byRule, fired, List.countP_cons, Nat.add_comm]

/-- A simplification counts its passes, and how many rules have logged a rewrite in each. -/
theorem settlesBy_settle
    (rules : List Rule)
    (held : List Formula)
    (x : Formula)
    (store : Store)
    (passes hits : Nat) :
    ∃ all, SettlesBy rules x all (settle rules held x store passes hits).1 ∧
      (settle rules held x store passes hits).2.log =
        store.log ++ (all.flatten.flatten ++
          [.settled (passes + all.length)
            (hits + (all.map (List.countP Event.anyRewrite)).sum)]) := by
  fun_induction settle rules held x store passes hits with
  | case1 x store passes hits round quiet =>
      obtain ⟨pass, logged, passesOver, fired⟩ := passesOver_inOrder (x :: held) rules x store
      have none : pass.countP Event.anyRewrite = 0 := fired.symm.trans quiet
      refine ⟨[pass], .last passesOver ?_, ?_⟩
      · exact List.any_eq_false.mpr (List.countP_eq_zero.mp none)
      · have log : round.store.log = store.log ++ pass.flatten := logged
        simp [Store.record, log, none]
  | case2 x store passes hits round fires inductionHypothesis =>
      obtain ⟨pass, logged, passesOver, fired⟩ := passesOver_inOrder (x :: held) rules x store
      obtain ⟨later, settlesBy, further⟩ := inductionHypothesis
      have log : round.store.log = store.log ++ pass.flatten := logged
      have count : round.fired = pass.countP Event.anyRewrite := fired
      refine ⟨pass :: later, .again passesOver ?_ settlesBy, ?_⟩
      · have positive : 0 < pass.countP Event.anyRewrite :=
          Nat.pos_of_ne_zero (count ▸ fires)
        obtain ⟨events, member, rewrites⟩ := List.countP_pos_iff.mp positive
        exact List.any_eq_true.mpr ⟨events, member, rewrites⟩
      · rw [further, log, count]
        simp only [List.flatten_cons, List.flatten_append, List.append_assoc, List.length_cons,
          List.map_cons, List.sum_cons, Nat.add_assoc, Nat.add_comm 1]

end Rewriting

section

variable {store : Store} {held : List Formula} {x : Formula}

/--
What a simplification logs is the chain of its rewrites, from the full text of the formula
to that of the result, and then one summary.  There is a rewrite unless the result is the
very node that was given.  The rewrites come in passes, and in a pass the rules in order,
each applied until it matches nowhere; the passes end with the first that rewrites
nothing.  The hits are the rules that rewrote something, counted anew in every pass, and
the passes are those that rewrote something and the last one.
-/
theorem session_simplify_log
    (session : Session store held)
    (member : x ∈ held)
    (rules : List Rule) :
    ∃ all : List (List (List Event)),
      SettlesBy rules x all (store.simplify rules held x).1 ∧
      (∀ event ∈ all.flatten.flatten, event.IsLiteral ∨ event.isRewrite) ∧
      store.since (store.simplify rules held x).2 =
        all.flatten.flatten ++
          [.settled (all.countP (List.any · Event.anyRewrite) + 1)
            (all.map (List.countP Event.anyRewrite)).sum] ∧
      Linked x.fullText
        ((store.since (store.simplify rules held x).2).filterMap Event.texts?)
        (store.simplify rules held x).1.fullText ∧
      ((store.since (store.simplify rules held x).2).filterMap Event.texts? = [] ↔
        SameNode x (store.simplify rules held x).1) := by
  obtain ⟨all, settlesBy, logged⟩ := Rewriting.settlesBy_settle rules held x store 0 0
  rw [Nat.zero_add, Nat.zero_add, settlesBy.length_eq] at logged
  have since := Store.since_eq logged
  have texts : (store.since (store.simplify rules held x).2).filterMap Event.texts? =
      all.flatten.flatten.filterMap Event.texts? := by
    rw [Store.simplify, since, List.filterMap_append]
    exact List.append_nil _
  refine ⟨all, settlesBy, settlesBy.trail.isLiteral_or_isRewrite, since, ?_, ?_⟩
  · rw [texts]
    exact settlesBy.trail.linked
  · have begun : Session store (x :: held) := session.of_subset (by simp [member])
    rw [texts, filterMap_texts?_eq_nil_iff, settlesBy.trail.anyRewrite_eq_false_iff,
      Session.sameNode_iff (begun.simplify rules) (List.mem_cons_of_mem _ member)
        (List.mem_cons_self ..)]
    rfl

end

/-- The first pass turns `0 + (0 - 3)` into `-3` by three rules, and the second does nothing. -/
theorem session_simplify_log_negative_literal :
    let draft := add (ofRat 0) (sub (ofRat 0) (ofRat 3))
    let entered := ({} : Store).enter [] draft
    let simplified := entered.2.simplify Rule.all [entered.1] entered.1
    let logged := entered.2.since simplified.2
    Session entered.2 [entered.1] ∧
      logged.filterMap Event.texts? =
        [("0 + {(0 - 3)}", "0 - 3"), ("0 - 3", "-1 * 3"), ("-1 * 3", "-3")] ∧
      (∃ events, logged = events ++ [.settled 2 3]) ∧
      ¬SameNode entered.1 simplified.1 := by
  intro draft entered simplified logged
  have inner : Drafted [] (sub (ofRat 0) (ofRat 3)) :=
    .combine (.literal 0) (.literal 3) (show combine .sub _ _ = .ok _ from rfl)
  have drafted : Drafted [] draft :=
    .combine (.literal 0) inner (show combine .add _ _ = .ok _ from rfl)
  have session := Session.start.enter drafted
  have texts : logged.filterMap Event.texts? =
      [("0 + {(0 - 3)}", "0 - 3"), ("0 - 3", "-1 * 3"), ("-1 * 3", "-3")] := by
    decide +kernel
  have last : (logged.getLast?.any fun
      | .settled passes hits => passes == 2 && hits == 3
      | _ => false) = true := by
    decide +kernel
  obtain ⟨all, _, _, since, _, sameNode⟩ :=
    session_simplify_log session (List.mem_singleton_self _) Rule.all
  refine ⟨session, texts, ⟨all.flatten.flatten, ?_⟩, fun same => ?_⟩
  · rw [show logged = _ from since, List.getLast?_concat, Option.any_some, Bool.and_eq_true,
      beq_iff_eq, beq_iff_eq] at last
    rw [show logged = _ from since, last.1, last.2]
  · exact absurd (texts.symm.trans (sameNode.mpr same)) (by simp)

end ExactFormula
