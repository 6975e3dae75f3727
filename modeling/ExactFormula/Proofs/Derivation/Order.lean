import ExactFormula.Derivation
import ExactFormula.Proofs.Formula.Gather
import Mathlib.Data.List.Induction

/-!
# The order of a derivation

A step of a derivation is decided by the name of an output and the shape of what it
wraps.  Where outputs of one name wrap formulas of one shape, no output contains
another one of its name.  So an output whose name has been met is not one that is
being walked through at the moment, but one whose step has been taken: every step
comes after the steps of all outputs that it uses.
-/

namespace ExactFormula

open Formula

/-! ## What a step names -/

namespace Formula

mutual

/--
The constants and outputs that a formula shows by name, in the order in which they
stand there; what an output wraps is not looked at.
-/
def shown : Formula → List Formula
  | literal _ _ => []
  | constant id name value => [constant id name value]
  | output id name inner => [output id name inner]
  | derived _ _ operands _ => shownOf operands

/-- The constants and outputs that some formulas show by name. -/
def shownOf : List Formula → List Formula
  | [] => []
  | x :: rest => shown x ++ shownOf rest

end

/-- The names that a formula shows, repetitions included. -/
def shownNames (x : Formula) : List String :=
  x.shown.filterMap name?

/-- The outputs of an output are itself and those in what it wraps. -/
theorem mem_outputs_output_iff
    {id : Option NodeId}
    {name : String}
    {inner : Formula}
    {wrapped : String × Formula} :
    wrapped ∈ outputs (output id name inner) ↔
      wrapped = (name, inner) ∨ wrapped ∈ outputs inner := by
  rw [outputs, gather_output, Multiset.mem_add, Multiset.mem_singleton]

/-- The outputs of a node are those of its operands. -/
theorem mem_outputs_derived_iff
    {id : Option NodeId}
    {op : Operator}
    {operands : List Formula}
    {value : Rat}
    {wrapped : String × Formula} :
    wrapped ∈ outputs (derived id op operands value) ↔ ∃ x ∈ operands, wrapped ∈ outputs x := by
  rw [outputs, gather_derived]
  induction operands with
  | nil => simp
  | cons x rest inductionHypothesis => simp [inductionHypothesis]

mutual

/-- An output that a formula shows is one of its outputs. -/
theorem mem_outputs_of_mem_shown {id : Option NodeId} {name : String} {inner : Formula} :
    ∀ x : Formula, output id name inner ∈ x.shown → (name, inner) ∈ outputs x
  | literal _ _, member => by simp [shown] at member
  | constant _ _ _, member => by simp [shown] at member
  | output _ _ _, member => by
      rw [shown, List.mem_singleton, output.injEq] at member
      exact mem_outputs_output_iff.mpr (.inl (by rw [member.2.1, member.2.2]))
  | derived _ _ operands _, member =>
      mem_outputs_derived_iff.mpr (mem_outputs_of_mem_shownOf operands member)

theorem mem_outputs_of_mem_shownOf {id : Option NodeId} {name : String} {inner : Formula} :
    ∀ operands : List Formula, output id name inner ∈ shownOf operands →
      ∃ x ∈ operands, (name, inner) ∈ outputs x
  | [], member => by simp [shownOf] at member
  | x :: rest, member => by
      rw [shownOf, List.mem_append] at member
      obtain first | later := member
      · exact ⟨x, List.mem_cons_self, mem_outputs_of_mem_shown x first⟩
      · obtain ⟨y, present, inside⟩ := mem_outputs_of_mem_shownOf rest later
        exact ⟨y, List.mem_cons_of_mem x present, inside⟩

end

end Formula

namespace Step

/-- A name is added unless it is known. -/
def addName (known : List String) (name : String) : List String :=
  if name ∈ known then known else known ++ [name]

mutual

/-- The names that a formula shows are added one after the other. -/
theorem addNames_eq_foldl :
    ∀ (x : Formula) (known : List String), addNames x known = x.shownNames.foldl addName known
  | .literal _ _, _ => rfl
  | .constant _ _ _, _ => rfl
  | .output _ _ _, _ => rfl
  | .derived _ _ operands _, known => addNamesOf_eq_foldl operands known

theorem addNamesOf_eq_foldl :
    ∀ (operands : List Formula) (known : List String),
      addNamesOf operands known = ((shownOf operands).filterMap name?).foldl addName known
  | [], _ => rfl
  | x :: rest, known => by
      rw [addNamesOf, addNamesOf_eq_foldl rest, addNames_eq_foldl x, shownOf, List.filterMap_append,
        List.foldl_append]
      rfl

end

/-- Adding names leaves the known ones in front and adds each new one once. -/
theorem foldl_addName (names known : List String) :
    names.foldl addName known = known ++ (names.removeAll known).eraseDups := by
  induction names generalizing known with
  | nil => simp [List.removeAll]
  | cons name rest inductionHypothesis =>
      rw [List.foldl_cons, inductionHypothesis, addName]
      by_cases met : name ∈ known
      · simp [met, List.removeAll]
      · simp [met, List.removeAll, List.eraseDups_cons, List.filter_filter, beq_eq_decide,
          Bool.and_comm]

/-- The names of a step are those that the formula shows, each where it stands first. -/
theorem dependencies_ofOutput (name : String) (inner : Formula) :
    (ofOutput name inner).dependencies = inner.shownNames.eraseDups := by
  rw [ofOutput, addNames_eq_foldl, foldl_addName, List.nil_append]
  simp [List.removeAll]

end Step

/-! ## Shapes -/

namespace Settings

variable (settings : Settings)

/-- The operator that is seen of an operand does not depend on identities. -/
theorem shownOperator?_shape (x : Formula) :
    settings.shownOperator? x.shape = settings.shownOperator? x := by
  cases x with
  | literal id value => rfl
  | constant id name value => rfl
  | output id name inner =>
      have inside := shownOperator?_shape inner
      rw [shape] at inside ⊢
      rw [relabel_output, labelled, shownOperator?, shownOperator?, inside]
  | derived id op operands value => rw [shape, relabel_derived, shownOperator?, shownOperator?]

theorem groups_shape (parent : Operator) (x : Formula) :
    settings.groups parent x.shape = settings.groups parent x := by
  unfold groups
  rw [shownOperator?_shape]

mutual

/-- A formula is written as its shape is. -/
theorem render_shape : ∀ x : Formula, settings.render x.shape = settings.render x
  | .literal _ _ => rfl
  | .constant _ _ _ => rfl
  | .output _ name inner => by
      have inside := render_shape inner
      rw [shape] at inside ⊢
      rw [relabel_output, labelled, render, render, inside]
  | .derived _ op operands value => by
      rw [shape, relabel, render, render, renderOperands_shape op operands]

theorem renderOperands_shape (parent : Operator) :
    ∀ operands : List Formula,
      settings.renderOperands parent (relabelAll named operands) =
        settings.renderOperands parent operands
  | [] => rfl
  | x :: rest => by
      have text := render_shape x
      have grouping := settings.groups_shape parent x
      rw [shape] at text grouping
      rw [relabelAll, renderOperands, renderOperands, text, grouping,
        renderOperands_shape parent rest]

end

end Settings

namespace Step

mutual

theorem addNames_shape :
    ∀ (x : Formula) (known : List String), addNames x.shape known = addNames x known
  | .literal _ _, _ => rfl
  | .constant _ _ _, _ => rfl
  | .output _ _ _, _ => rfl
  | .derived _ _ operands _, known => addNamesOf_shape operands known

theorem addNamesOf_shape :
    ∀ (operands : List Formula) (known : List String),
      addNamesOf (relabelAll named operands) known = addNamesOf operands known
  | [], _ => rfl
  | x :: rest, known => by
      have first := addNames_shape x known
      rw [shape] at first
      rw [relabelAll, addNamesOf, addNamesOf, first, addNamesOf_shape rest]

end

/-- The step of an output does not depend on identities. -/
theorem ofOutput_shape (name : String) (x : Formula) :
    ofOutput name x.shape = ofOutput name x := by
  rw [ofOutput, ofOutput, namedText, namedText, Settings.render_shape, shape,
    value_relabel keepsValues_named, ← shape, addNames_shape]

/-- A step is decided by the name and the shape of what is wrapped. -/
theorem ofOutput_eq_of_shape_eq
    {name : String}
    {first second : Formula}
    (same : first.shape = second.shape) :
    ofOutput name first = ofOutput name second := by
  rw [← ofOutput_shape name first, same, ofOutput_shape name second]

end Step

namespace Derivation

mutual

/-- The steps that a formula adds do not depend on identities. -/
theorem visit_shape :
    ∀ (x : Formula) (derivation : Derivation), visit x.shape derivation = visit x derivation
  | .literal _ _, _ => rfl
  | .constant _ _ _, _ => rfl
  | .output _ name inner, derivation => by
      have step := Step.ofOutput_shape name inner
      have inside := visit_shape inner
      rw [shape] at step inside ⊢
      rw [relabel_output, labelled, visit, visit, inside, step]
  | .derived _ _ operands _, derivation => visitAll_shape operands derivation

theorem visitAll_shape :
    ∀ (operands : List Formula) (derivation : Derivation),
      visitAll (relabelAll named operands) derivation = visitAll operands derivation
  | [], _ => rfl
  | x :: rest, derivation => by
      have first := visit_shape x derivation
      rw [shape] at first
      rw [relabelAll, visitAll, visitAll, first, visitAll_shape rest]

end

/-! ## What a visit adds -/

/-- The steps of some outputs have been taken, each of a name that had not been met. -/
structure Adds
    (there : String × Formula → Prop)
    (before after : Derivation)
    (added : List (String × Formula)) :
    Prop where
  /-- The steps follow those that had been taken. -/
  steps : after.steps = before.steps ++ added.map fun wrapped => Step.ofOutput wrapped.1 wrapped.2
  /-- The names of the steps have been met now, and no other ones. -/
  seen : ∀ name, name ∈ after.seen ↔ name ∈ before.seen ∨ name ∈ added.map Prod.fst
  /-- No two of the steps have one name. -/
  nodup : (added.map Prod.fst).Nodup
  /-- None of the names had been met. -/
  fresh : ∀ name ∈ added.map Prod.fst, name ∉ before.seen
  /-- The outputs are among those that are there. -/
  present : ∀ wrapped ∈ added, there wrapped

namespace Adds

variable
  {there more : String × Formula → Prop}
  {before middle after : Derivation}
  {added later : List (String × Formula)}

theorem refl (derivation : Derivation) : Adds there derivation derivation [] := by
  constructor <;> simp

theorem mono
    (adds : Adds there before after added)
    (implies : ∀ wrapped, there wrapped → more wrapped) :
    Adds more before after added :=
  ⟨adds.steps, adds.seen, adds.nodup, adds.fresh,
    fun wrapped member => implies wrapped (adds.present wrapped member)⟩

theorem append
    (first : Adds there before middle added)
    (second : Adds there middle after later) :
    Adds there before after (added ++ later) where
  steps := by rw [second.steps, first.steps, List.map_append, List.append_assoc]
  seen name := by rw [second.seen, first.seen, List.map_append, List.mem_append, or_assoc]
  nodup := by
    rw [List.map_append, List.nodup_append]
    refine ⟨first.nodup, second.nodup, ?_⟩
    rintro name early _ late rfl
    exact second.fresh name late ((first.seen name).mpr (.inr early))
  fresh name member := by
    rw [List.map_append, List.mem_append] at member
    obtain early | late := member
    · exact first.fresh name early
    · exact fun met => second.fresh name late ((first.seen name).mpr (.inl met))
  present wrapped member :=
    (List.mem_append.mp member).elim (first.present wrapped) (second.present wrapped)

/-- A step is taken after those of what the output wraps. -/
theorem wrap
    {name : String}
    {inner : Formula}
    (unmet : name ∉ before.seen)
    (inside : Adds there { before with seen := name :: before.seen } after added)
    (present : there (name, inner)) :
    Adds there before { after with steps := after.steps ++ [Step.ofOutput name inner] }
      (added ++ [(name, inner)]) where
  steps := by rw [inside.steps, List.map_append, List.append_assoc, List.map_singleton]
  seen other := by
    rw [inside.seen, List.mem_cons, List.map_append, List.mem_append, List.map_singleton,
      List.mem_singleton]
    tauto
  nodup := by
    rw [List.map_append, List.map_singleton, List.nodup_append]
    refine ⟨inside.nodup, List.nodup_singleton name, ?_⟩
    rintro other early _ late rfl
    rw [List.mem_singleton.mp late] at early
    exact inside.fresh name early List.mem_cons_self
  fresh other member := by
    rw [List.map_append, List.mem_append, List.map_singleton, List.mem_singleton] at member
    obtain early | rfl := member
    · exact fun met => inside.fresh other early (List.mem_cons_of_mem name met)
    · exact unmet
  present wrapped member := by
    obtain early | last := List.mem_append.mp member
    · exact inside.present wrapped early
    · exact List.mem_singleton.mp last ▸ present

end Adds

mutual

/-- A visit adds steps of outputs of the formula. -/
theorem exists_adds_visit :
    ∀ (x : Formula) (derivation : Derivation),
      ∃ added, Adds (· ∈ outputs x) derivation (visit x derivation) added
  | .literal _ _, derivation => ⟨[], .refl derivation⟩
  | .constant _ _ _, derivation => ⟨[], .refl derivation⟩
  | .output _ name inner, derivation => by
      by_cases met : name ∈ derivation.seen
      · rw [visit, if_pos met]
        exact ⟨[], .refl derivation⟩
      · rw [visit, if_neg met]
        obtain ⟨added, adds⟩ :=
          exists_adds_visit inner { derivation with seen := name :: derivation.seen }
        refine ⟨_, Adds.wrap met (adds.mono fun wrapped inside => ?_) ?_⟩
        · exact mem_outputs_output_iff.mpr (.inr inside)
        · exact mem_outputs_output_iff.mpr (.inl rfl)
  | .derived _ _ operands _, derivation => by
      obtain ⟨added, adds⟩ := exists_adds_visitAll operands derivation
      exact ⟨added, adds.mono fun wrapped => mem_outputs_derived_iff.mpr⟩

theorem exists_adds_visitAll :
    ∀ (operands : List Formula) (derivation : Derivation),
      ∃ added, Adds (fun wrapped => ∃ x ∈ operands, wrapped ∈ outputs x) derivation
        (visitAll operands derivation) added
  | [], derivation => ⟨[], .refl derivation⟩
  | x :: rest, derivation => by
      obtain ⟨first, adds⟩ := exists_adds_visit x derivation
      obtain ⟨later, addsLater⟩ := exists_adds_visitAll rest (visit x derivation)
      refine ⟨first ++ later, (adds.mono ?_).append (addsLater.mono ?_)⟩
      · exact fun wrapped inside => ⟨x, List.mem_cons_self, inside⟩
      · rintro wrapped ⟨y, member, inside⟩
        exact ⟨y, List.mem_cons_of_mem x member, inside⟩

end

end Derivation

/-! ## Names that stand for one thing -/

namespace Formula

/-- Outputs of one name wrap formulas of one shape. -/
def NamesAgree (x : Formula) : Prop :=
  ∀ first ∈ outputs x, ∀ second ∈ outputs x,
    first.1 = second.1 → first.2.shape = second.2.shape

section

variable {x y node : Formula} {wrapped : String × Formula}

/-- A node has no more outputs than the formula around it. -/
theorem outputs_le_of_occurs (occurs : Occurs node x) : outputs node ≤ outputs x := by
  induction occurs with
  | root => exact le_refl _
  | inner _ inductionHypothesis => exact inductionHypothesis.trans (Multiset.le_add_left _ _)
  | operand member _ inductionHypothesis =>
      exact inductionHypothesis.trans (gather_le_of_mem member)

/-- An output comes with all outputs in what it wraps. -/
theorem cons_outputs_le (member : wrapped ∈ outputs x) :
    wrapped ::ₘ outputs wrapped.2 ≤ outputs x := by
  obtain ⟨id, occurs⟩ := mem_outputs_iff.mp member
  exact outputs_le_of_occurs occurs

/-- An output inside an output of a formula is one of the formula. -/
theorem mem_outputs_trans
    {deeper : String × Formula}
    (inside : deeper ∈ outputs wrapped.2)
    (member : wrapped ∈ outputs x) :
    deeper ∈ outputs x :=
  Multiset.mem_of_le (cons_outputs_le member) (Multiset.mem_cons_of_mem inside)

/-- Structurally equal formulas have the same outputs up to identities. -/
theorem map_outputs_of_shape_eq (same : x.shape = y.shape) :
    (outputs x).map (fun wrapped => (wrapped.1, wrapped.2.shape)) =
      (outputs y).map fun wrapped => (wrapped.1, wrapped.2.shape) := by
  rw [← outputs_shape, same, outputs_shape]

/-- Each output of a formula has its like in any formula that is structurally equal. -/
theorem exists_output_of_shape_eq (same : x.shape = y.shape) (member : wrapped ∈ outputs x) :
    ∃ other ∈ outputs y, other.1 = wrapped.1 ∧ other.2.shape = wrapped.2.shape := by
  have image := Multiset.mem_map_of_mem
    (fun wrapped : String × Formula => (wrapped.1, wrapped.2.shape)) member
  rw [map_outputs_of_shape_eq same, Multiset.mem_map] at image
  obtain ⟨other, present, equal⟩ := image
  rw [Prod.mk.injEq] at equal
  exact ⟨other, present, equal⟩

/-- Where names agree, what an output wraps has no output of the same name. -/
theorem NamesAgree.ne_of_mem
    {deeper : String × Formula}
    (agree : NamesAgree x)
    (member : wrapped ∈ outputs x)
    (inside : deeper ∈ outputs wrapped.2) :
    deeper.1 ≠ wrapped.1 := by
  intro named
  have same := agree deeper (mem_outputs_trans inside member) wrapped member named
  have fewer := Multiset.card_le_card (cons_outputs_le inside)
  have equal := congrArg Multiset.card (map_outputs_of_shape_eq same)
  rw [Multiset.card_map, Multiset.card_map] at equal
  rw [Multiset.card_cons] at fewer
  omega

end

end Formula

/-! ## Steps in order -/

/-- The step of an output with its name and what it wraps. -/
abbrev Step.of (wrapped : String × Formula) : Step :=
  Step.ofOutput wrapped.1 wrapped.2

/-- Steps of outputs of a formula, each after the steps of all outputs in what it describes. -/
inductive InOrder (whole : Formula) : List Step → Prop
  /-- No steps are in order. -/
  | nil : InOrder whole []
  /-- The step of an output may follow those of the outputs that are wrapped there. -/
  | snoc
      {steps : List Step}
      {wrapped : String × Formula} :
      InOrder whole steps → wrapped ∈ outputs whole →
      (∀ deeper ∈ outputs wrapped.2, Step.of deeper ∈ steps) →
      InOrder whole (steps ++ [Step.of wrapped])

namespace InOrder

variable {whole : Formula} {steps : List Step}

/-- Every step has those of the outputs that it uses before it. -/
theorem before
    (inOrder : InOrder whole steps)
    {front back : List Step}
    {step : Step}
    (split : steps = front ++ step :: back) :
    ∃ wrapped ∈ outputs whole, step = Step.of wrapped ∧
      ∀ deeper ∈ outputs wrapped.2, Step.of deeper ∈ front := by
  induction inOrder generalizing back with
  | nil => simp at split
  | @snoc steps wrapped _ member used inductionHypothesis =>
      cases back using List.reverseRecOn with
      | nil =>
          obtain ⟨rfl, last⟩ := List.append_inj' split rfl
          rw [List.singleton_inj] at last
          exact ⟨wrapped, member, last.symm, used⟩
      | append_singleton back last =>
          rw [← List.cons_append, ← List.append_assoc] at split
          exact inductionHypothesis (List.append_inj' split rfl).1

/-- Every step describes an output, and the steps of all outputs that it uses are there. -/
theorem of_mem
    (inOrder : InOrder whole steps)
    {step : Step}
    (member : step ∈ steps) :
    ∃ wrapped ∈ outputs whole, step = Step.of wrapped ∧
      ∀ deeper ∈ outputs wrapped.2, Step.of deeper ∈ steps := by
  obtain ⟨front, back, split⟩ := List.append_of_mem member
  obtain ⟨wrapped, present, same, used⟩ := inOrder.before split
  refine ⟨wrapped, present, same, fun deeper inside => ?_⟩
  rw [split]
  exact List.mem_append_left _ (used deeper inside)

/-- Where names agree, a name with a step stands for outputs that have their steps. -/
theorem mem_of_name_mem
    (inOrder : InOrder whole steps)
    (agree : NamesAgree whole)
    {wrapped : String × Formula}
    (member : wrapped ∈ outputs whole)
    (taken : wrapped.1 ∈ steps.map Step.name) :
    Step.of wrapped ∈ steps ∧ ∀ deeper ∈ outputs wrapped.2, Step.of deeper ∈ steps := by
  obtain ⟨step, present, named⟩ := List.mem_map.mp taken
  obtain ⟨other, otherMember, rfl, used⟩ := inOrder.of_mem present
  have shape : other.2.shape = wrapped.2.shape := agree other otherMember wrapped member named
  constructor
  · have same : Step.of other = Step.of wrapped := by
      rw [Step.of, Step.ofOutput_eq_of_shape_eq shape, Step.of]
      exact congrArg (Step.ofOutput · wrapped.2) named
    exact same ▸ present
  · intro deeper inside
    obtain ⟨twin, twinMember, twinName, twinShape⟩ := exists_output_of_shape_eq shape.symm inside
    have same : Step.of twin = Step.of deeper := by
      rw [Step.of, Step.ofOutput_eq_of_shape_eq twinShape, twinName]
    exact same ▸ used twin twinMember

end InOrder

namespace Derivation

/--
The steps so far are in order, and a name that has been met has its step, if it is one
of those that are to be visited: it is not one that is being walked through.
-/
structure Ready
    (whole : Formula)
    (there : String × Formula → Prop)
    (derivation : Derivation) :
    Prop where
  /-- The outputs to be visited are outputs of the whole. -/
  inside : ∀ wrapped, there wrapped → wrapped ∈ outputs whole
  /-- The steps are in order. -/
  inOrder : InOrder whole derivation.steps
  /-- A name that has been met has its step. -/
  taken : ∀ wrapped, there wrapped → wrapped.1 ∈ derivation.seen →
    wrapped.1 ∈ derivation.steps.map Step.name

/-- The steps are in order, and those of the outputs that were to be visited are there. -/
structure Finished
    (whole : Formula)
    (there : String × Formula → Prop)
    (derivation : Derivation) :
    Prop where
  /-- The steps are in order. -/
  inOrder : InOrder whole derivation.steps
  /-- Every output has its step. -/
  taken : ∀ wrapped, there wrapped → Step.of wrapped ∈ derivation.steps

variable {whole : Formula} {there more : String × Formula → Prop} {before after : Derivation}

theorem Ready.mono
    (ready : Ready whole more before)
    (implies : ∀ wrapped, there wrapped → more wrapped) :
    Ready whole there before :=
  ⟨fun wrapped here => ready.inside wrapped (implies wrapped here), ready.inOrder,
    fun wrapped here => ready.taken wrapped (implies wrapped here)⟩

/-- What is still to be visited is ready after something else has been visited. -/
theorem Ready.visited
    (ready : Ready whole there before)
    {added : List (String × Formula)}
    (adds : Adds more before after added)
    (inOrder : InOrder whole after.steps) :
    Ready whole there after := by
  refine ⟨ready.inside, inOrder, fun wrapped here met => ?_⟩
  rw [adds.steps, List.map_append, List.map_map, List.mem_append]
  exact ((adds.seen _).mp met).imp_left (ready.taken wrapped here)

/-- Inside an output no name is that of the output, so everything there is ready. -/
theorem Ready.enter
    (agree : NamesAgree whole)
    {id : Option NodeId}
    {name : String}
    {inner : Formula}
    (ready : Ready whole (· ∈ outputs (output id name inner)) before) :
    Ready whole (· ∈ outputs inner) { before with seen := name :: before.seen } := by
  have deeper : ∀ wrapped ∈ outputs inner, wrapped ∈ outputs (output id name inner) :=
    fun wrapped inside => mem_outputs_output_iff.mpr (.inr inside)
  have here : (name, inner) ∈ outputs whole :=
    ready.inside _ (mem_outputs_output_iff.mpr (.inl rfl))
  refine ⟨fun wrapped inside => ready.inside wrapped (deeper wrapped inside), ready.inOrder, ?_⟩
  intro wrapped inside met
  obtain own | earlier := List.mem_cons.mp met
  · exact absurd own (agree.ne_of_mem here inside)
  · exact ready.taken wrapped (deeper wrapped inside) earlier

mutual

/-- Where names agree, a visit leaves the steps of all outputs of a formula in order. -/
theorem finished_visit (agree : NamesAgree whole) :
    ∀ (x : Formula) (derivation : Derivation),
      Ready whole (· ∈ outputs x) derivation →
        Finished whole (· ∈ outputs x) (visit x derivation)
  | .literal _ _, _, ready => ⟨ready.inOrder, fun _ none => absurd none (Multiset.notMem_zero _)⟩
  | .constant _ _ _, _, ready => ⟨ready.inOrder, fun _ none => absurd none (Multiset.notMem_zero _)⟩
  | .output id name inner, derivation, ready => by
      have here : (name, inner) ∈ outputs (output id name inner) :=
        mem_outputs_output_iff.mpr (.inl rfl)
      have member := ready.inside _ here
      by_cases met : name ∈ derivation.seen
      · rw [visit, if_pos met]
        have taken := ready.inOrder.mem_of_name_mem agree member (ready.taken _ here met)
        refine ⟨ready.inOrder, fun wrapped present => ?_⟩
        obtain rfl | inside := mem_outputs_output_iff.mp present
        · exact taken.1
        · exact taken.2 wrapped inside
      · rw [visit, if_neg met]
        have finished := finished_visit agree inner _ (ready.enter agree)
        refine ⟨finished.inOrder.snoc member finished.taken, fun wrapped present => ?_⟩
        rw [List.mem_append, List.mem_singleton]
        obtain rfl | inside := mem_outputs_output_iff.mp present
        · exact .inr rfl
        · exact .inl (finished.taken wrapped inside)
  | .derived _ _ operands _, derivation, ready => by
      have finished := finished_visitAll agree operands derivation
        (ready.mono fun wrapped => mem_outputs_derived_iff.mpr)
      exact ⟨finished.inOrder, fun wrapped present =>
        finished.taken wrapped (mem_outputs_derived_iff.mp present)⟩

theorem finished_visitAll (agree : NamesAgree whole) :
    ∀ (operands : List Formula) (derivation : Derivation),
      Ready whole (fun wrapped => ∃ x ∈ operands, wrapped ∈ outputs x) derivation →
        Finished whole (fun wrapped => ∃ x ∈ operands, wrapped ∈ outputs x)
          (visitAll operands derivation)
  | [], derivation, ready => ⟨ready.inOrder, by simp⟩
  | x :: rest, derivation, ready => by
      have first := finished_visit agree x derivation
        (ready.mono fun wrapped inside => ⟨x, List.mem_cons_self, inside⟩)
      obtain ⟨_, adds⟩ := exists_adds_visit x derivation
      have readyRest : Ready whole (fun wrapped => ∃ y ∈ rest, wrapped ∈ outputs y)
          (visit x derivation) := by
        refine (ready.visited adds first.inOrder).mono ?_
        rintro wrapped ⟨y, member, inside⟩
        exact ⟨y, List.mem_cons_of_mem x member, inside⟩
      have later := finished_visitAll agree rest _ readyRest
      obtain ⟨_, addsLater⟩ := exists_adds_visitAll rest (visit x derivation)
      refine ⟨later.inOrder, ?_⟩
      rintro wrapped ⟨y, member, inside⟩
      obtain rfl | inRest := List.mem_cons.mp member
      · rw [visitAll, addsLater.steps]
        exact List.mem_append_left _ (first.taken wrapped inside)
      · exact later.taken wrapped ⟨y, inRest, inside⟩

end

end Derivation

namespace Formula

/-- Where names agree, the steps of a derivation are in order, and no output lacks its step. -/
theorem NamesAgree.finished {x : Formula} (agree : NamesAgree x) :
    Derivation.Finished x (· ∈ outputs x) (Derivation.visit x {}) :=
  Derivation.finished_visit agree x {} ⟨fun _ => id, .nil, by simp⟩

/--
Where names agree, every step describes an output: the text with names of what it
wraps, its value, and the names that it shows.  The steps of all outputs that it shows
stand before it.
-/
theorem derivation_inOrder
    {x : Formula}
    (agree : NamesAgree x)
    {front back : List Step}
    {step : Step}
    (split : x.derivation = front ++ step :: back) :
    ∃ id inner,
      Occurs (output id step.name inner) x ∧
        step.formula = Settings.render { expand := false } inner ∧
        step.result = inner.value ∧
        step.dependencies = inner.shownNames.eraseDups ∧
        ∀ ownId name wrapped, output ownId name wrapped ∈ inner.shown →
          Step.ofOutput name wrapped ∈ front := by
  obtain ⟨⟨name, inner⟩, member, rfl, used⟩ := agree.finished.inOrder.before split
  obtain ⟨id, occurs⟩ := mem_outputs_iff.mp member
  refine ⟨id, inner, occurs, rfl, rfl, Step.dependencies_ofOutput name inner, ?_⟩
  intro ownId shown wrapped present
  exact used (shown, wrapped) (mem_outputs_of_mem_shown inner present)

/-- An output that is used twice has one step, before that of the output that uses it. -/
theorem derivation_inOrder_shared :
    let side := labelled "side" (ofRat 3)
    let area := mul side side
    let x := labelled "area" area
    NamesAgree x ∧
      x.derivation = [Step.ofOutput "side" (ofRat 3)] ++ [Step.ofOutput "area" area] ∧
      ∃ id inner,
        Occurs (output id "area" inner) x ∧
          area.namedText = Settings.render { expand := false } inner ∧
          area.value = inner.value ∧
          ["side"] = inner.shownNames.eraseDups ∧
          ∀ ownId name wrapped, output ownId name wrapped ∈ inner.shown →
            Step.ofOutput name wrapped ∈ [Step.ofOutput "side" (ofRat 3)] := by
  intro side area x
  have outputs_x : outputs x = {("area", area), ("side", ofRat 3), ("side", ofRat 3)} := rfl
  have agree : NamesAgree x := by
    intro first firstMember second secondMember named
    simp only [outputs_x, Multiset.insert_eq_cons, Multiset.mem_cons, Multiset.mem_singleton]
      at firstMember secondMember
    obtain rfl | rfl | rfl := firstMember <;> obtain rfl | rfl | rfl := secondMember <;>
      first | rfl | exact absurd named (by decide)
  have split :
      x.derivation = [Step.ofOutput "side" (ofRat 3)] ++ Step.ofOutput "area" area :: [] := rfl
  exact ⟨agree, split, derivation_inOrder agree split⟩

end Formula

end ExactFormula
