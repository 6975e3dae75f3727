import ExactFormula.Proofs.Rewrite.Context
import ExactFormula.Proofs.Rewrite.Trail

/-!
# Values along a simplification

Ancestors of a rewritten node keep the values that they stored, so a
simplification stays coherent exactly as long as every replacement has the value
of the node it replaces.  Only a dropped zero power breaks this.
-/

namespace ExactFormula
namespace Formula

variable {rule : Rule} {rules : List Rule} {x y draft : Formula}

/-- A quotient divides by something that is not zero. -/
def DividesByNonzero : Formula → Prop
  | derived _ .div [_, divisor] _ => divisor.value ≠ 0
  | _ => True

theorem Coherent.dividesByNonzero (coherent : Coherent x) : Everywhere DividesByNonzero x := by
  intro node occurs
  unfold DividesByNonzero
  split
  · have evaluated := (coherent_derived_iff.mp (coherent.of_occurs occurs)).1
    exact (Operator.apply_div_eq_ok_iff.mp evaluated).1
  · trivial

/-! ## One rewrite -/

theorem rewriteFirst?_sound
    (coherent : Coherent x)
    (kept : ∀ node, x.redex? rule.apply = some node → ¬rule.DropsZeroPower node)
    (rewritten : x.rewriteFirst? rule.apply = some draft) :
    Coherent draft ∧ draft.value = x.value := by
  obtain ⟨node, replacement, first, matched, replaces⟩ := replaces_of_rewriteFirst? x rewritten
  obtain ⟨coherentReplacement, same⟩ :=
    Rule.apply_sound (coherent.of_occurs replaces.occurs) (kept node first) matched
  exact ⟨replaces.coherent same coherentReplacement coherent, replaces.value same⟩

theorem zeroPowerFree_rewriteFirst?
    (coherent : Coherent x)
    (free : ZeroPowerFree x)
    (rewritten : x.rewriteFirst? rule.apply = some draft) :
    ZeroPowerFree draft := by
  obtain ⟨node, replacement, first, matched, replaces⟩ := replaces_of_rewriteFirst? x rewritten
  have freeNode : ZeroPowerFree node := free.of_occurs replaces.occurs
  obtain ⟨_, same⟩ :=
    Rule.apply_sound (coherent.of_occurs replaces.occurs) freeNode.not_dropsZeroPower matched
  exact replaces.zeroPowerFree same (zeroPowerFree_of_effect (Rule.effect_of_apply matched) freeNode)
    free

/-- The rules never collapse powers, or there is no zero power that they could drop. -/
def KeptBy (rules : List Rule) (x : Formula) : Prop :=
  .powerCollapse ∉ rules ∨ ZeroPowerFree x

theorem KeptBy.not_dropsZeroPower
    (kept : KeptBy rules x)
    (member : rule ∈ rules)
    {node : Formula}
    (occurs : Occurs node x) :
    ¬rule.DropsZeroPower node := by
  intro drops
  obtain omitted | free := kept
  · exact omitted (drops.1 ▸ member)
  · exact ZeroPowerFree.not_dropsZeroPower (free.of_occurs occurs) drops

/-- A rewrite hands on what it needs, and keeps the value. -/
theorem sound_of_rewrites
    (coherent : Coherent x)
    (kept : KeptBy rules x)
    (rewrites : Rewrites rules x y) :
    Coherent y ∧ KeptBy rules y ∧ y.value = x.value := by
  obtain ⟨rule, member, draft, rewritten, same⟩ := rewrites
  have notDropped : ∀ node, x.redex? rule.apply = some node → ¬rule.DropsZeroPower node := by
    intro node first
    exact kept.not_dropsZeroPower member (occurs_of_redex? rewritten first)
  obtain ⟨coherentDraft, value⟩ := rewriteFirst?_sound coherent notDropped rewritten
  refine ⟨coherent_of_shape_eq same coherentDraft, ?_, (value_of_shape_eq same).trans value⟩
  apply kept.imp_right
  intro free
  rw [← zeroPowerFree_shape_iff, same, zeroPowerFree_shape_iff]
  exact zeroPowerFree_rewriteFirst? coherent free rewritten

theorem sound_of_reaches
    (coherent : Coherent x)
    (kept : KeptBy rules x)
    (reaches : Reaches rules x y) :
    Coherent y ∧ KeptBy rules y ∧ y.value = x.value := by
  induction reaches with
  | refl => exact ⟨coherent, kept, rfl⟩
  | tail _ rewrites inductionHypothesis =>
      obtain ⟨coherentMiddle, keptMiddle, valueMiddle⟩ := inductionHypothesis
      obtain ⟨coherentLast, keptLast, valueLast⟩ :=
        sound_of_rewrites coherentMiddle keptMiddle rewrites
      exact ⟨coherentLast, keptLast, valueLast.trans valueMiddle⟩

/-! ## The top of a formula -/

/-- What stands under the outputs around a formula. -/
def unwrapped : Formula → Formula
  | output _ _ inner => unwrapped inner
  | x => x

theorem value_unwrapped (x : Formula) : x.unwrapped.value = x.value := by
  fun_induction unwrapped x with
  | case1 id name inner inductionHypothesis => exact inductionHypothesis
  | case2 x notOutput => rfl

theorem shape_unwrapped (x : Formula) : x.shape.unwrapped = x.unwrapped.shape := by
  fun_induction unwrapped x with
  | case1 id name inner inductionHypothesis => exact inductionHypothesis
  | case2 x notOutput =>
      cases x with
      | output id name inner => exact absurd rfl (notOutput id name inner)
      | _ => rfl

/-- A rule that matches at the top replaces what stands there. -/
theorem rewriteFirst?_of_unwrapped
    {rule : Formula → Option Formula}
    {replacement : Formula} :
    ∀ x : Formula, rule x.unwrapped = some replacement →
      x.redex? rule = some x.unwrapped ∧
        ∃ draft, x.rewriteFirst? rule = some draft ∧ draft.unwrapped = replacement.unwrapped
  | literal id value, matched => by
      have applied : rule (literal id value) = some replacement := matched
      exact ⟨by simp [redex?, applied, unwrapped], replacement, applied, rfl⟩
  | constant id name value, matched => by
      have applied : rule (constant id name value) = some replacement := matched
      exact ⟨by simp [redex?, applied, unwrapped], replacement, applied, rfl⟩
  | output id name inner, matched => by
      obtain ⟨first, draft, rewritten, same⟩ := rewriteFirst?_of_unwrapped inner matched
      exact ⟨first, labelled name draft, by simp [rewriteFirst?, rewritten], same⟩
  | derived id op operands value, matched => by
      have applied : rule (derived id op operands value) = some replacement := matched
      exact ⟨by simp [redex?, applied, unwrapped], replacement, by simp [rewriteFirst?, applied], rfl⟩

/-- No rule matches in a literal under outputs. -/
theorem rewriteFirst?_of_unwrapped_literal
    (rule : Rule)
    {id : Option NodeId}
    {value : Rat} :
    ∀ x : Formula, x.unwrapped = literal id value → x.rewriteFirst? rule.apply = none
  | literal _ _, _ => by cases rule <;> rfl
  | output _ name inner, top => by
      rw [rewriteFirst?, rewriteFirst?_of_unwrapped_literal rule inner top, Option.map_none]
  | constant _ _ _, top => by simp [unwrapped] at top
  | derived _ _ _ _, top => by simp [unwrapped] at top

/-- A rewrite that leaves the top in place leaves the stored value there. -/
theorem value_of_redex?_ne_unwrapped
    {rule : Formula → Option Formula} :
    ∀ (x : Formula) {draft : Formula}, x.rewriteFirst? rule = some draft →
      x.redex? rule ≠ some x.unwrapped → draft.value = x.value
  | literal id value, draft, rewritten, elsewhere => by
      have matched : rule (literal id value) = some draft := rewritten
      simp [redex?, matched, unwrapped] at elsewhere
  | constant id name value, draft, rewritten, elsewhere => by
      have matched : rule (constant id name value) = some draft := rewritten
      simp [redex?, matched, unwrapped] at elsewhere
  | output id name inner, _, rewritten, elsewhere => by
      simp only [rewriteFirst?, Option.map_eq_some_iff] at rewritten
      obtain ⟨rebuilt, found, rfl⟩ := rewritten
      have value := value_of_redex?_ne_unwrapped inner found elsewhere
      exact value
  | derived id op operands value, draft, rewritten, elsewhere => by
      cases matched : rule (derived id op operands value) with
      | some replacement => simp [redex?, matched, unwrapped] at elsewhere
      | none =>
          simp only [rewriteFirst?, matched, Option.map_eq_some_iff] at rewritten
          obtain ⟨rebuilt, _, rfl⟩ := rewritten
          rfl

/-- A zero power that is dropped at the top was worth one, and leaves the literal zero there. -/
theorem dropped_at_top
    (coherent : Coherent x)
    (rewritten : x.rewriteFirst? rule.apply = some draft)
    (first : x.redex? rule.apply = some x.unwrapped)
    (drops : rule.DropsZeroPower x.unwrapped) :
    x.value = 1 ∧ draft.unwrapped = ofRat 0 := by
  obtain ⟨_, replacement, first', matched, _⟩ := replaces_of_rewriteFirst? x rewritten
  rw [first, Option.some.injEq] at first'
  subst first'
  have coherentTop : Coherent x.unwrapped :=
    coherent.of_occurs (occurs_of_redex? rewritten first)
  obtain ⟨rfl, one⟩ := Rule.apply_of_dropsZeroPower coherentTop drops matched
  obtain ⟨_, _, rewritten', top⟩ := rewriteFirst?_of_unwrapped x matched
  rw [rewritten, Option.some.injEq] at rewritten'
  subst rewritten'
  exact ⟨(value_unwrapped x).symm.trans one, top⟩

/-- Nothing more happens once a literal stands at the top. -/
theorem quiet_of_shape_eq_literal
    {value : Rat}
    (same : y.shape = draft.shape)
    (top : draft.unwrapped = ofRat value) :
    y.value = value ∧ ∀ rule : Rule, y.rewriteFirst? rule.apply = none := by
  have shape : y.unwrapped.shape = ofRat value := by
    rw [← shape_unwrapped, same, shape_unwrapped, top]
    rfl
  cases atTop : y.unwrapped with
  | literal id held =>
      rw [atTop] at shape
      obtain rfl : held = value := (Formula.literal.inj shape).2
      rw [← value_unwrapped, atTop]
      exact ⟨rfl, fun rule => rewriteFirst?_of_unwrapped_literal rule y atTop⟩
  | constant id name held => simp [atTop, Formula.shape, named, ofRat] at shape
  | output id name inner => simp [atTop, Formula.shape, labelled, ofRat] at shape
  | derived id op operands held => simp [atTop, Formula.shape, ofRat] at shape

end Formula

/-! ## Logged rewrites -/

namespace Event

open Formula

/-- What a logged rewrite put in the place of a node has the value of that node. -/
def KeepsValue : Event → Prop
  | .rewrite rule before _ =>
      ∀ node replacement,
        before.redex? rule.apply = some node → rule.apply node = some replacement →
          replacement.value = node.value
  | _ => True

/-- A logged rewrite collapsed a zero power with the value one to zero. -/
def DropsZeroPower : Event → Prop
  | .rewrite rule before _ =>
      ∃ node, before.redex? rule.apply = some node ∧ rule.DropsZeroPower node
  | _ => False

/-- A logged rewrite replaced all that stands under the outputs around a formula. -/
def AtTop : Event → Prop
  | .rewrite rule before _ => before.redex? rule.apply = some before.unwrapped
  | _ => False

/-- In a coherent formula a rewrite keeps the value exactly when it drops no zero power. -/
theorem keepsValue_iff
    {rule : Rule}
    {x y draft : Formula}
    (coherent : Coherent x)
    (rewritten : x.rewriteFirst? rule.apply = some draft) :
    (Event.rewrite rule x y).KeepsValue ↔ ¬(Event.rewrite rule x y).DropsZeroPower := by
  obtain ⟨node, replacement, first, matched, replaces⟩ := replaces_of_rewriteFirst? x rewritten
  have local_iff := Rule.value_apply_iff (coherent.of_occurs replaces.occurs) matched
  constructor
  · rintro keeps ⟨other, first', drops⟩
    rw [first, Option.some.injEq] at first'
    subst first'
    exact local_iff.mp (keeps node replacement first matched) drops
  · intro kept other otherReplacement first' matched'
    rw [first, Option.some.injEq] at first'
    subst first'
    rw [matched, Option.some.injEq] at matched'
    subst matched'
    exact local_iff.mpr fun drops => kept ⟨node, first, drops⟩

end Event

namespace Trail

open Formula

variable {rules : List Rule} {x y : Formula} {events : List Event}

/-- A trail without a dropped zero power keeps coherence and value. -/
theorem sound
    (trail : Trail rules x events y)
    (coherent : Coherent x)
    (kept : ∀ event ∈ events, ¬event.DropsZeroPower) :
    Coherent y ∧ y.value = x.value := by
  induction trail with
  | rest => exact ⟨coherent, rfl⟩
  | literal _ _ inductionHypothesis =>
      exact inductionHypothesis coherent fun event member => kept event (by simp [member])
  | rewrite _ rewritten same _ inductionHypothesis =>
      have notDropped := kept _ List.mem_cons_self
      obtain ⟨coherentDraft, value⟩ := rewriteFirst?_sound coherent
        (fun node first drops => notDropped ⟨node, first, drops⟩) rewritten
      obtain ⟨coherentLast, last⟩ := inductionHypothesis (coherent_of_shape_eq same coherentDraft)
        fun event member => kept event (by simp [member])
      exact ⟨coherentLast, last.trans ((value_of_shape_eq same).trans value)⟩

/-- Every rewrite of a trail keeps the value of its node exactly when none drops a zero power. -/
theorem keepsValue_iff
    (trail : Trail rules x events y)
    (coherent : Coherent x) :
    (∀ event ∈ events, event.KeepsValue) ↔ ∀ event ∈ events, ¬event.DropsZeroPower := by
  induction trail with
  | rest => simp
  | @literal x y event events isLiteral _ inductionHypothesis =>
      rw [List.forall_mem_cons, List.forall_mem_cons, inductionHypothesis coherent]
      cases event with
      | literal found value => simp [Event.KeepsValue, Event.DropsZeroPower]
      | _ => exact isLiteral.elim
  | rewrite _ rewritten same _ inductionHypothesis =>
      rw [List.forall_mem_cons, List.forall_mem_cons, Event.keepsValue_iff coherent rewritten]
      refine and_congr_right fun notDropped => inductionHypothesis ?_
      obtain ⟨coherentDraft, _⟩ := rewriteFirst?_sound coherent
        (fun node first drops => notDropped ⟨node, first, drops⟩) rewritten
      exact coherent_of_shape_eq same coherentDraft

/-- From where no rule matches, a trail leads nowhere. -/
theorem eq_of_quiet
    (trail : Trail rules x events y)
    (quiet : ∀ rule : Rule, x.rewriteFirst? rule.apply = none) :
    y = x := by
  induction trail with
  | rest => rfl
  | literal _ _ inductionHypothesis => exact inductionHypothesis quiet
  | rewrite _ rewritten => simp [quiet] at rewritten

/-- The value at the root changes only where a rewrite replaces the top. -/
theorem value_of_not_atTop
    (trail : Trail rules x events y)
    (elsewhere : ∀ event ∈ events, ¬event.AtTop) :
    y.value = x.value := by
  induction trail with
  | rest => rfl
  | literal _ _ inductionHypothesis =>
      exact inductionHypothesis fun event member => elsewhere event (by simp [member])
  | @rewrite _ x _ _ _ _ _ rewritten same _ inductionHypothesis =>
      have value := value_of_redex?_ne_unwrapped x rewritten (elsewhere _ List.mem_cons_self)
      have last := inductionHypothesis fun event member => elsewhere event (by simp [member])
      exact last.trans ((value_of_shape_eq same).trans value)

/-- Where zero powers are dropped at the top only, the value stays exactly when none is dropped. -/
theorem value_iff_of_atTop
    (trail : Trail rules x events y)
    (coherent : Coherent x)
    (atTop : ∀ event ∈ events, event.DropsZeroPower → event.AtTop) :
    y.value = x.value ↔ ∀ event ∈ events, ¬event.DropsZeroPower := by
  refine ⟨?_, fun kept => (trail.sound coherent kept).2⟩
  intro same
  induction trail with
  | rest => simp
  | @literal x y event events isLiteral _ inductionHypothesis =>
      rw [List.forall_mem_cons] at atTop ⊢
      refine ⟨?_, inductionHypothesis coherent atTop.2 same⟩
      cases event with
      | literal found value => exact id
      | _ => exact isLiteral.elim
  | @rewrite rule x draft middle y events member rewritten shape rest inductionHypothesis =>
      rw [List.forall_mem_cons] at atTop ⊢
      by_cases drops : (Event.rewrite rule x middle).DropsZeroPower
      · -- The zero that is put at the top is a literal, and nothing happens after that.
        exfalso
        have top := atTop.1 drops
        obtain ⟨node, first, dropsNode⟩ := drops
        rw [Event.AtTop, first, Option.some.injEq] at top
        subst top
        obtain ⟨one, literal⟩ := dropped_at_top coherent rewritten first dropsNode
        obtain ⟨zero, quiet⟩ := quiet_of_shape_eq_literal shape literal
        rw [rest.eq_of_quiet quiet, zero, one] at same
        exact absurd same (by decide)
      · obtain ⟨coherentDraft, value⟩ := rewriteFirst?_sound coherent
          (fun node first dropsNode => drops ⟨node, first, dropsNode⟩) rewritten
        have middleValue := (value_of_shape_eq shape).trans value
        exact ⟨drops, inductionHypothesis (coherent_of_shape_eq shape coherentDraft) atTop.2
          (same.trans middleValue.symm)⟩

end Trail

/-! ## Simplification -/

open Formula

/--
From a coherent formula without a zero power that could be dropped, rules reach
coherent formulas of the same value only, and whatever simplification makes on
the way is reached.
-/
theorem coherent_throughout
    {rules : List Rule}
    {x : Formula}
    (coherent : Coherent x)
    (kept : .powerCollapse ∉ rules ∨ ZeroPowerFree x) :
    (∀ y, Reaches rules x y →
        Coherent y ∧ Everywhere DividesByNonzero y ∧ y.value = x.value) ∧
      (∀ rule ∈ rules, ∀ draft, x.rewriteFirst? rule.apply = some draft → Reaches rules x draft) ∧
      (∀ rule ∈ rules, ∀ held store,
        Reaches rules x (Rewriting.byRule rule held x store).formula) ∧
      (∀ held store, Reaches rules x (Rewriting.pass rules held x store).formula) ∧
      ∀ held (store : Store),
        Reaches rules x (store.simplify rules held x).1 ∧
          ∀ rule before after,
            .rewrite rule before after ∈ store.since (store.simplify rules held x).2 →
              Reaches rules x before ∧ Reaches rules x after := by
  refine ⟨?_, ?_, ?_, ?_, ?_⟩
  · intro y reaches
    obtain ⟨coherentLast, _, value⟩ := sound_of_reaches coherent kept reaches
    exact ⟨coherentLast, coherentLast.dividesByNonzero, value⟩
  · intro rule member draft rewritten
    exact .single ⟨rule, member, draft, rewritten, rfl⟩
  · intro rule member held store
    have follows := Rewriting.follows_exhaust rule (x :: held) x store
    exact (follows.mono (by simpa using member)).reaches
  · intro held store
    exact (Rewriting.follows_inOrder (x :: held) rules x store).reaches
  · intro held store
    obtain ⟨events, passes, hits, logged, trail⟩ := store.trail_simplify rules held x
    refine ⟨trail.reaches, ?_⟩
    intro rule before after member
    rw [logged, List.mem_append, List.mem_singleton] at member
    exact trail.reaches_of_mem (member.resolve_right (by simp))

theorem coherent_throughout_difference :
    Coherent (sub (ofRat 5) (ofRat 0)) ∧
      (.powerCollapse ∉ Rule.all ∨ ZeroPowerFree (sub (ofRat 5) (ofRat 0))) ∧
      Coherent (({} : Store).simplify Rule.all [] (sub (ofRat 5) (ofRat 0))).1 := by
  have coherent := coherent_sub (coherent_literal none 5) (coherent_literal none 0)
  have free := zeroPowerFree_sub (zeroPowerFree_literal none 5) (zeroPowerFree_literal none 0)
  obtain ⟨sound, _, _, _, simplified⟩ := coherent_throughout coherent (.inr free)
  exact ⟨coherent, .inr free, (sound _ (simplified [] {}).1).1⟩

/--
When the value survives simplification.  Every rewrite keeps the value of the
node that it replaces exactly when none of them drops a zero power, and then the
value of the whole stays.  It does not if the drop is made at the top, where the
value is read; without a rewrite at the top it does.
-/
theorem value_simplify
    {x : Formula}
    (built : Built x)
    (rules : List Rule)
    (held : List Formula)
    (store : Store) :
    let result := (store.simplify rules held x).1
    let events := store.since (store.simplify rules held x).2
    ((∀ event ∈ events, event.KeepsValue) ↔ ∀ event ∈ events, ¬event.DropsZeroPower) ∧
      ((∀ event ∈ events, ¬event.DropsZeroPower) → result.value = x.value) ∧
      ((∃ event ∈ events, event.DropsZeroPower) →
        (∀ event ∈ events, event.DropsZeroPower → event.AtTop) → result.value ≠ x.value) ∧
      ((∀ event ∈ events, ¬event.AtTop) → result.value = x.value) ∧
      (ZeroPowerFree x → result.value = x.value) := by
  obtain ⟨events, passes, hits, logged, trail⟩ := store.trail_simplify rules held x
  have coherent := built.coherent
  -- The summary at the end of the log is no rewrite.
  have summaryKeeps : (Event.settled passes hits).KeepsValue := trivial
  have summaryDrops : ¬(Event.settled passes hits).DropsZeroPower := id
  have summaryTop : ¬(Event.settled passes hits).AtTop := id
  simp only [logged, List.forall_mem_append, List.forall_mem_singleton, summaryKeeps, summaryDrops,
    summaryTop, not_false_eq_true, and_true]
  refine ⟨trail.keepsValue_iff coherent, fun kept => (trail.sound coherent kept).2, ?_,
    trail.value_of_not_atTop, fun free => (sound_of_reaches coherent (.inr free) trail.reaches).2.2⟩
  rintro ⟨event, member, drops⟩ atTop same
  have dropsNone := (trail.value_iff_of_atTop coherent atTop.1).mp same
  obtain earlier | summary := List.mem_append.mp member
  · exact dropsNone event earlier drops
  · rw [List.mem_singleton.mp summary] at drops
    exact drops

theorem value_simplify_difference :
    Built (sub (ofRat 5) (ofRat 0)) ∧
      (({} : Store).simplify Rule.all [] (sub (ofRat 5) (ofRat 0))).1.value = 5 := by
  have built : Built (sub (ofRat 5) (ofRat 0)) :=
    .combine (.literal 5) (.literal 0) (show combine .sub (ofRat 5) (ofRat 0) = .ok _ from rfl)
  have free := zeroPowerFree_sub (zeroPowerFree_literal none 5) (zeroPowerFree_literal none 0)
  obtain ⟨_, _, _, _, kept⟩ := value_simplify built Rule.all [] {}
  exact ⟨built, (kept free).trans (sub_zero (5 : Rat))⟩

/-- The power of zero by one less one has the value one, and is simplified to zero. -/
theorem value_simplify_zero_power :
    let power := ofValue .pow [ofRat 0, sub (ofRat 1) (ofRat 1)] 1
    Built power ∧ power.value = 1 ∧ (({} : Store).simplify Rule.all [] power).1.value = 0 := by
  have exponent : Built (sub (ofRat 1) (ofRat 1)) :=
    .combine (.literal 1) (.literal 1) (show combine .sub (ofRat 1) (ofRat 1) = .ok _ from rfl)
  have evaluated : combine .pow (ofRat 0) (sub (ofRat 1) (ofRat 1)) =
      .ok (ofValue .pow [ofRat 0, sub (ofRat 1) (ofRat 1)] 1) := by
    have zero : (sub (ofRat 1) (ofRat 1)).value = 0 := sub_self (1 : Rat)
    rw [combine, pow, zero, Number.power_zero]
    rfl
  refine ⟨.combine (.literal 0) exponent evaluated, rfl, ?_⟩
  decide +kernel

end ExactFormula
