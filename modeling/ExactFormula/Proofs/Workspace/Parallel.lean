import ExactFormula.Proofs.Workspace.Likeness

/-!
# Commands that go side by side

A command that is carried out in two workspaces leaves them as alike as they were and is
answered alike, or refused for the same fault.  Sweeping is the one thing that is not
done side by side: it is what the workspaces may differ in.
-/

namespace ExactFormula

open Formula

/-! ## What a command names -/

/-- The register that a field names, if the field can be read. -/
def Register.names (register : Register) : List String :=
  register.toOption.toList

/-- The register that an operand is taken from. -/
def Operand.names : Operand → List String
  | .register source => Register.names source
  | .number _ => []
  | .integer _ _ => []

namespace Command

/-- The registers from which a command takes a formula, and the one that it empties. -/
def names : Command → List String
  | .literal _ | .constant _ _ | .standard _ => []
  | .output _ inner => inner.names
  | .derive _ operands | .sum operands | .product operands => operands.flatMap Operand.names
  | .combine _ x y | .compare x y => Register.names x ++ y.names
  | .same x y => Register.names x ++ Register.names y
  | .clamp x least greatest =>
      Register.names x ++ (Register.names least ++ Register.names greatest)
  | .floor x | .operandAt x _ | .innerOf x | .describe x | .valueOf x | .render x _
  | .derivation x | .explanation x | .simplify x _ | .pass x _ | .applyRule x _
  | .rewriteFirst x _ | .applyAtRoot x _ | .matching x | .drop x => Register.names x
  | .sweep | .poolSize | .internPrivately _ | .sweepPrivate | .renewPrivate => []

/-- Whether a command sweeps a pool. -/
def isSweep : Command → Bool
  | .sweep | .sweepPrivate => true
  | _ => false

end Command

/-- What is seen of an answer that is compared with another one; the sizes of pools are not. -/
def Answer.seen (node : Formula → Formula) (flag : Bool → Bool) : Answer → Answer
  | .formula x => .formula (node x)
  | .chosen x flags => .chosen (node x) (flags.map flag)
  | .description x => .description (node x)
  | .same one => .same (flag one)
  | .rewritten before after fired => .rewritten (node before) (node after) fired
  | .swept _ _ => .swept 0 0
  | .poolSize _ => .poolSize 0
  | .interned x _ => .interned (node x) 0
  | .privateSize _ => .privateSize 0
  | .privateSwept _ _ => .privateSwept 0 0
  | .number value => .number value
  | .order comparison => .order comparison
  | .text written => .text written
  | .steps taken => .steps taken
  | .table written => .table written
  | .unchanged => .unchanged
  | .rules matched => .rules matched
  | .dropped existed => .dropped existed

namespace Likeness

/-- Two workspaces correspond. -/
structure Workspaces (likeness : Likeness) (left right : Workspace) : Prop where
  registers : likeness.registers left.registers right.registers
  stores : likeness.stores left.store right.store
  pools : likeness.pools left.privatePool right.privatePool

/-- Two answers look the same and leave formulas that correspond for a register. -/
structure Answers (likeness : Likeness) (left right : Answer) : Prop where
  seen : left.seen likeness.node likeness.flag = right.seen likeness.node likeness.flag
  formula : Option.Rel likeness.formulas left.formula? right.formula?

end Likeness

namespace Action

/-- From workspaces that correspond, two actions lead to such workspaces and to results to match. -/
def Parallel
    {α β : Type}
    (likeness : Likeness)
    (first : Action α)
    (second : Action β)
    (post : α → β → Prop) :
    Prop :=
  ∀ left right : Workspace, likeness.Workspaces left right →
    likeness.Workspaces (first.run.run left).2 (second.run.run right).2 ∧
      Both post (first.run.run left).1 (second.run.run right).1

section

variable
  {α β γ δ : Type}
  {likeness : Likeness}
  {post : α → β → Prop}

theorem parallel_pure {x : α} {y : β} (same : post x y) :
    Parallel likeness (pure x) (pure y) post :=
  fun _ _ alike => ⟨alike, .ok same⟩

theorem parallel_throw (fault : Fault) :
    Parallel likeness (throw fault) (throw fault) post :=
  fun _ _ alike => ⟨alike, .error fault⟩

/--
Actions one after the other go side by side if each of them does, whatever the first ones give.
-/
theorem Parallel.bind
    {first : Action γ}
    {second : Action δ}
    {rest : γ → Action α}
    {others : δ → Action β}
    {middle : γ → δ → Prop}
    (begun : Parallel likeness first second middle)
    (later : ∀ x y, middle x y → Parallel likeness (rest x) (others y) post) :
    Parallel likeness (first >>= rest) (second >>= others) post := by
  intro left right alike
  obtain ⟨after, results⟩ := begun left right alike
  simp only [ExceptT.run_bind, StateT.run_bind]
  cases one : first.run.run left with
  | mk result leftAfter =>
      cases other : second.run.run right with
      | mk twin rightAfter =>
          rw [one, other] at after results
          cases results with
          | error fault => exact ⟨after, .error fault⟩
          | ok same => exact later _ _ same leftAfter rightAfter after

/-- Two results that correspond are taken out, or both actions are refused. -/
theorem parallel_ofExcept {result : Except Failure α} {twin : Except Failure β}
    (results : Both post result twin) :
    Parallel likeness (ofExcept result) (ofExcept twin) post := by
  cases results with
  | ok same => exact parallel_pure same
  | error cause => exact parallel_throw _

theorem parallel_ofOption {result : Option α} {twin : Option β} (fault : Fault)
    (results : Option.Rel post result twin) :
    Parallel likeness (ofOption fault result) (ofOption fault twin) post := by
  cases results with
  | some same => exact parallel_pure same
  | none => exact parallel_throw fault

/-- A field of the command is the same on both sides. -/
theorem parallel_ofField (field : Field α) :
    Parallel likeness (ofField field) (ofField field) fun x y => x = y ∧ field = .ok x := by
  cases field with
  | ok content => exact parallel_pure ⟨rfl, rfl⟩
  | error fault => exact parallel_throw fault

theorem parallel_get :
    Parallel likeness (get : Action Workspace) get likeness.Workspaces :=
  fun _ _ alike => ⟨alike, .ok alike⟩

/-- The results of two actions may be dropped. -/
theorem parallel_discard {first : Action α} {second : Action β}
    (parallel : Parallel likeness first second post) :
    Parallel likeness (discard first) (discard second) fun _ _ => True := by
  have same {γ : Type} (action : Action γ) : discard action = action >>= fun _ => pure () := by
    rw [bind_pure_comp]
    rfl
  rw [same, same]
  exact parallel.bind fun _ _ _ => parallel_pure trivial

/-- An action for each entry goes side by side if each single one does. -/
theorem parallel_mapM
    {first : γ → Action α}
    {second : δ → Action β}
    {entries : List γ}
    {others : List δ}
    {relation : γ → δ → Prop}
    (each : ∀ x y, relation x y → Parallel likeness (first x) (second y) post)
    (alike : List.Forall₂ relation entries others) :
    Parallel likeness (entries.mapM first) (others.mapM second) (List.Forall₂ post) := by
  induction alike with
  | nil => exact parallel_pure .nil
  | cons entry _ inductionHypothesis =>
      rw [List.mapM_cons, List.mapM_cons]
      refine (each _ _ entry).bind fun x y same => ?_
      exact inductionHypothesis.bind fun xs ys rest => parallel_pure (.cons same rest)

theorem parallel_filterM
    {first second : γ → Action Bool}
    (each : ∀ x, Parallel likeness (first x) (second x) Eq)
    (entries : List γ) :
    Parallel likeness (entries.filterM first) (entries.filterM second) Eq := by
  have filtered : ∀ chosen : List γ,
      Parallel likeness (entries.filterAuxM first chosen)
        (entries.filterAuxM second chosen) Eq := by
    induction entries with
    | nil => exact fun chosen => parallel_pure rfl
    | cons entry entries inductionHypothesis =>
        refine fun chosen => (each entry).bind ?_
        rintro keeps _ rfl
        exact inductionHypothesis _
  refine (filtered []).bind ?_
  rintro chosen _ rfl
  exact parallel_pure rfl

end

section

variable
  {α β : Type}
  {likeness : Likeness}
  {post : α → β → Prop}
  {x y : Formula}
  {pending others : List Formula}
  {register : Register}

/-! ## Registers and stores -/

/-- A register that is shown gives formulas that correspond. -/
theorem parallel_fetch
    (kept : likeness.Kept)
    (shown : ∀ name ∈ Register.names register, likeness.shown name) :
    Parallel likeness (fetch register) (fetch register) likeness.formulas := by
  refine (parallel_ofField register).bind ?_
  rintro name _ ⟨rfl, rfl⟩
  refine parallel_get.bind fun left right alike => parallel_ofOption _ ?_
  exact kept.lookup alike.registers (shown name (by simp [Register.names, Except.toOption]))

/-- An operand is a formula of a register that is shown, or the literal of a number. -/
theorem parallel_read
    (kept : likeness.Kept)
    {operand : Operand}
    (shown : ∀ name ∈ operand.names, likeness.shown name) :
    Parallel likeness (read operand) (read operand) likeness.formulas := by
  cases operand with
  | register register => exact parallel_fetch kept shown
  | number text =>
      refine (parallel_ofExcept (.refl _)).bind ?_
      rintro value _ rfl
      exact parallel_pure (kept.literal value)
  | integer width text =>
      refine (parallel_ofOption _ (rel_refl _)).bind ?_
      rintro value _ rfl
      exact parallel_pure (kept.literal value)

theorem parallel_readAll
    (kept : likeness.Kept)
    {operands : List Operand}
    (shown : ∀ name ∈ operands.flatMap Operand.names, likeness.shown name) :
    Parallel likeness (operands.mapM read) (operands.mapM read)
      (List.Forall₂ likeness.formulas) := by
  have each : ∀ operand other : Operand, operand = other ∧ operand ∈ operands →
      Parallel likeness (read operand) (read other) likeness.formulas := by
    rintro operand _ ⟨rfl, member⟩
    exact parallel_read kept fun name named =>
      shown name (List.mem_flatMap.mpr ⟨operand, member, named⟩)
  exact parallel_mapM each (List.forall₂_same.mpr fun operand member => ⟨rfl, member⟩)

/-- Whatever keeps a likeness of two stores goes side by side. -/
theorem parallel_inStore
    (kept : likeness.Kept)
    {change : List Formula → Store → α × Store}
    {twin : List Formula → Store → β × Store}
    (keeps : ∀ {held kept store other}, likeness.helds held kept → likeness.stores store other →
      post (change held store).1 (twin kept other).1 ∧
        likeness.stores (change held store).2 (twin kept other).2) :
    Parallel likeness (inStore change) (inStore twin) post := by
  intro left right alike
  obtain ⟨same, stores⟩ := keeps (kept.held alike.registers) alike.stores
  exact ⟨⟨alike.registers, stores, alike.pools⟩, .ok same⟩

/-- Drafts that correspond are entered side by side. -/
theorem parallel_enter
    (kept : likeness.Kept)
    (parts : List.Forall₂ likeness.formulas pending others)
    (drafts : likeness.formulas x y) :
    Parallel likeness (enter pending x) (enter others y) likeness.formulas :=
  parallel_inStore kept fun holds stores => kept.enter (kept.holdAll parts holds) stores drafts

theorem parallel_make
    (kept : likeness.Kept)
    (parts : List.Forall₂ likeness.formulas pending others)
    (drafts : likeness.formulas x y) :
    Parallel likeness (make pending x) (make others y) likeness.Answers := by
  refine (parallel_enter kept parts drafts).bind fun x y alike => parallel_pure ?_
  exact ⟨congrArg Answer.formula (kept.node alike), .some alike⟩

/-! ## Commands -/

/-- One and the same answer without a formula. -/
theorem answers_self {answer : Answer} (formula : answer.formula? = none) :
    likeness.Answers answer answer :=
  ⟨rfl, by rw [formula]; exact .none⟩

/-- A rewrite is answered with the formulas before and after it. -/
theorem answers_rewritten
    (kept : likeness.Kept)
    {before first after second : Formula}
    (begun : likeness.formulas before first)
    (ended : likeness.formulas after second)
    (fired : Option Bool) :
    likeness.Answers (.rewritten before after fired) (.rewritten first second fired) :=
  ⟨congrArg₂ (Answer.rewritten · · fired) (kept.node begun) (kept.node ended), .some ended⟩

/-- Operands are entered before the operator is applied to them, in both runs. -/
theorem parallel_derive
    (kept : likeness.Kept)
    (op : Field Operator)
    {operands : List Operand}
    (shown : ∀ name ∈ operands.flatMap Operand.names, likeness.shown name) :
    Parallel likeness (perform (.derive op operands)) (perform (.derive op operands))
      likeness.Answers := by
  refine (parallel_readAll kept shown).bind fun drafts twins alike => ?_
  refine (parallel_inStore kept fun holds stores => kept.enterAll holds stores alike).bind ?_
  intro xs ys entered
  refine (parallel_ofField op).bind ?_
  rintro op _ ⟨rfl, _⟩
  have built := kept.derive op entered
  generalize Formula.derive op xs = first at built
  generalize Formula.derive op ys = second at built
  cases built with
  | ok draft => exact parallel_make kept entered draft
  | error cause => exact parallel_throw _

/-- A combinator gives formulas that correspond, or fails on both sides for the same cause. -/
theorem parallel_combine
    (kept : likeness.Kept)
    (op : BinaryOperator)
    {operand : Operand}
    (shown : ∀ name ∈ Register.names register ++ operand.names, likeness.shown name) :
    Parallel likeness (perform (.combine op register operand))
      (perform (.combine op register operand)) likeness.Answers := by
  rw [List.forall_mem_append] at shown
  refine (parallel_fetch kept shown.1).bind fun x y left => ?_
  refine (parallel_read kept shown.2).bind fun draft twin drafts => ?_
  refine (parallel_enter kept (.cons left .nil) drafts).bind fun first second right => ?_
  refine (parallel_ofExcept (kept.combine op left right)).bind fun _ _ built => ?_
  exact parallel_make kept (.cons left (.cons right .nil)) built

/-- Only the values of two formulas are compared, and these agree in both runs. -/
theorem parallel_compare
    (kept : likeness.Kept)
    {operand : Operand}
    (shown : ∀ name ∈ Register.names register ++ operand.names, likeness.shown name) :
    Parallel likeness (perform (.compare register operand)) (perform (.compare register operand))
      likeness.Answers := by
  rw [List.forall_mem_append] at shown
  refine (parallel_fetch kept shown.1).bind fun x y left => ?_
  refine (parallel_read kept shown.2).bind fun draft twin drafts => ?_
  have copies :
      List.Forall₂ likeness.formulas (List.replicate 6 draft) (List.replicate 6 twin) := by
    simp [List.replicate, drafts]
  have entering := parallel_mapM (fun _ _ copy => parallel_enter kept (.cons left .nil) copy) copies
  refine (parallel_discard entering).bind fun _ _ _ => ?_
  rw [kept.value left, kept.value drafts]
  exact parallel_pure (answers_self rfl)

/-- The same rules match on both sides. -/
theorem parallel_matching
    (kept : likeness.Kept)
    (shown : ∀ name ∈ Register.names register, likeness.shown name) :
    Parallel likeness (perform (.matching register)) (perform (.matching register))
      likeness.Answers := by
  refine (parallel_fetch kept shown).bind fun x y alike => ?_
  refine (parallel_filterM (fun rule => ?_) Rule.all).bind ?_
  · have applied := kept.applied rule alike
    generalize rule.apply x = first at applied
    generalize rule.apply y = second at applied
    cases applied with
    | none => exact parallel_pure rfl
    | some drafts =>
        exact (parallel_discard (parallel_enter kept (.cons alike .nil) drafts)).bind
          fun _ _ _ => parallel_pure rfl
  · rintro matched _ rfl
    exact parallel_pure (answers_self rfl)

theorem parallel_operandAt
    (kept : likeness.Kept)
    (index : Field Nat)
    (shown : ∀ name ∈ Register.names register, likeness.shown name) :
    Parallel likeness (perform (.operandAt register index)) (perform (.operandAt register index))
      likeness.Answers := by
  refine (parallel_fetch kept shown).bind fun x y alike => ?_
  refine (parallel_ofField index).bind ?_
  rintro index _ ⟨rfl, _⟩
  have found := rel_getElem? (kept.operands alike) index
  refine (parallel_ofOption _ found).bind fun first second operand => parallel_pure ?_
  exact ⟨congrArg Answer.formula (kept.node operand), .some operand⟩

theorem parallel_innerOf
    (kept : likeness.Kept)
    (shown : ∀ name ∈ Register.names register, likeness.shown name) :
    Parallel likeness (perform (.innerOf register)) (perform (.innerOf register))
      likeness.Answers := by
  refine (parallel_fetch kept shown).bind fun x y alike => ?_
  refine (parallel_ofOption _ (kept.inner alike)).bind fun first second inner => parallel_pure ?_
  exact ⟨congrArg Answer.formula (kept.node inner), .some inner⟩

theorem parallel_clamp
    (kept : likeness.Kept)
    {least greatest : Register}
    (shown : ∀ name ∈ Register.names register ++ (Register.names least ++ Register.names greatest),
      likeness.shown name) :
    Parallel likeness (perform (.clamp register least greatest))
      (perform (.clamp register least greatest)) likeness.Answers := by
  rw [List.forall_mem_append, List.forall_mem_append] at shown
  refine (parallel_fetch kept shown.1).bind fun x y alike => ?_
  refine (parallel_fetch kept shown.2.1).bind fun least bottom lower => ?_
  refine (parallel_fetch kept shown.2.2).bind fun greatest top upper => parallel_pure ?_
  have chosen := kept.clamp alike lower upper
  refine ⟨?_, .some chosen⟩
  simp only [Answer.seen, List.map_cons, List.map_nil, kept.node chosen, kept.flag chosen alike,
    kept.flag chosen lower, kept.flag chosen upper]

/-- What is read of a formula is answered. -/
theorem parallel_answer
    (kept : likeness.Kept)
    {answer : Formula → Answer}
    (shown : ∀ name ∈ Register.names register, likeness.shown name)
    (answers : ∀ {x y}, likeness.formulas x y → likeness.Answers (answer x) (answer y)) :
    Parallel likeness (fetch register >>= fun x => pure (answer x))
      (fetch register >>= fun x => pure (answer x)) likeness.Answers :=
  (parallel_fetch kept shown).bind fun _ _ alike => parallel_pure (answers alike)

theorem parallel_same
    (kept : likeness.Kept)
    {other : Register}
    (shown : ∀ name ∈ Register.names register ++ Register.names other, likeness.shown name) :
    Parallel likeness (perform (.same register other)) (perform (.same register other))
      likeness.Answers := by
  rw [List.forall_mem_append] at shown
  refine (parallel_fetch kept shown.1).bind fun x y left => ?_
  refine (parallel_fetch kept shown.2).bind fun first second right => parallel_pure ?_
  exact ⟨congrArg Answer.same (kept.flag left right), .none⟩

/-- Formulas that correspond are written alike. -/
theorem parallel_render
    (kept : likeness.Kept)
    (display : Field DisplayChoice)
    (shown : ∀ name ∈ Register.names register, likeness.shown name) :
    Parallel likeness (perform (.render register display)) (perform (.render register display))
      likeness.Answers := by
  refine (parallel_fetch kept shown).bind fun x y alike => ?_
  have written (settings : Settings) : settings.render x = settings.render y := by
    rw [← settings.render_shape x, kept.shape alike, settings.render_shape y]
  refine (parallel_ofField display).bind ?_
  rintro choice _ ⟨rfl, _⟩
  cases choice with
  | settings settings =>
      simp only [written settings]
      exact parallel_pure (answers_self rfl)
  | json text =>
      cases read : Settings.read? text with
      | none =>
          simp only [read]
          exact parallel_throw _
      | some settings =>
          simp only [read, written settings]
          exact parallel_pure (answers_self rfl)

/-- The derivation of a formula depends on its shape alone. -/
theorem parallel_derivation
    (kept : likeness.Kept)
    (shown : ∀ name ∈ Register.names register, likeness.shown name) :
    Parallel likeness (perform (.derivation register)) (perform (.derivation register))
        likeness.Answers ∧
      Parallel likeness (perform (.explanation register)) (perform (.explanation register))
        likeness.Answers := by
  have steps {x y : Formula} (alike : likeness.formulas x y) : x.derivation = y.derivation := by
    rw [Formula.derivation, Formula.derivation, ← Derivation.visit_shape x, kept.shape alike,
      Derivation.visit_shape y]
  constructor
  · refine parallel_answer kept shown fun alike => ?_
    rw [steps alike]
    exact answers_self rfl
  · refine parallel_answer kept shown fun alike => ?_
    rw [explanation, explanation, steps alike]
    exact answers_self rfl

/-- Simplification goes side by side, with as many passes and hits. -/
theorem parallel_simplify
    (kept : likeness.Kept)
    (rules : Field (List Rule))
    (shown : ∀ name ∈ Register.names register, likeness.shown name) :
    Parallel likeness (perform (.simplify register rules)) (perform (.simplify register rules))
      likeness.Answers := by
  refine (parallel_fetch kept shown).bind fun x y alike => ?_
  refine (parallel_ofField rules).bind ?_
  rintro rules _ ⟨rfl, _⟩
  refine (parallel_inStore kept fun holds stores =>
    kept.simplify rules (kept.hold alike holds) alike stores).bind fun after second ended => ?_
  exact parallel_pure (answers_rewritten kept alike ended none)

/-- A rewriting of a formula that is fetched is answered with whether a rule fired. -/
theorem parallel_rewriting
    (kept : likeness.Kept)
    {rewrite : List Formula → Formula → Store → Rewriting}
    (alike : likeness.formulas x y)
    (keeps : ∀ {held others store other}, likeness.helds held others →
      likeness.stores store other →
      Likeness.Rewritings likeness (rewrite held x store) (rewrite others y other)) :
    Parallel likeness
      (do
        let (after, fired) ← inStore fun held store =>
          let result := rewrite (x :: held) x store
          ((result.formula, result.fired), result.store)
        pure (.rewritten x after (some (fired ≠ 0))))
      (do
        let (after, fired) ← inStore fun held store =>
          let result := rewrite (y :: held) y store
          ((result.formula, result.fired), result.store)
        pure (.rewritten y after (some (fired ≠ 0))))
      likeness.Answers := by
  let same (result twin : Formula × Nat) : Prop :=
    likeness.formulas result.1 twin.1 ∧ result.2 = twin.2
  refine Parallel.bind (?_ : Parallel likeness _ _ same) ?_
  · refine parallel_inStore kept fun holds stores => ?_
    have rewritings := keeps (kept.hold alike holds) stores
    exact ⟨⟨rewritings.formula, rewritings.fired⟩, rewritings.store⟩
  · rintro ⟨after, fired⟩ ⟨second, _⟩ ⟨ended, rfl⟩
    exact parallel_pure (answers_rewritten kept alike ended _)

theorem parallel_pass
    (kept : likeness.Kept)
    (rules : Field (List Rule))
    (shown : ∀ name ∈ Register.names register, likeness.shown name) :
    Parallel likeness (perform (.pass register rules)) (perform (.pass register rules))
      likeness.Answers := by
  refine (parallel_fetch kept shown).bind fun x y alike => ?_
  refine (parallel_ofField rules).bind ?_
  rintro rules _ ⟨rfl, _⟩
  exact parallel_rewriting kept alike fun holds stores => kept.pass rules holds alike stores

theorem parallel_applyRule
    (kept : likeness.Kept)
    (rule : Field Rule)
    (shown : ∀ name ∈ Register.names register, likeness.shown name) :
    Parallel likeness (perform (.applyRule register rule)) (perform (.applyRule register rule))
      likeness.Answers := by
  refine (parallel_fetch kept shown).bind fun x y alike => ?_
  refine (parallel_ofField rule).bind ?_
  rintro rule _ ⟨rfl, _⟩
  exact parallel_rewriting kept alike fun holds stores => kept.byRule rule holds alike stores

/-- A formula is rewritten once, or not at all. -/
theorem parallel_replace
    (kept : likeness.Kept)
    {draft twin : Option Formula}
    (alike : likeness.formulas x y)
    (drafts : Option.Rel likeness.formulas draft twin) :
    Parallel likeness
      (match draft with
      | some draft => do pure (.rewritten x (← enter [x] draft) none)
      | none => pure .unchanged)
      (match twin with
      | some draft => do pure (.rewritten y (← enter [y] draft) none)
      | none => pure .unchanged)
      likeness.Answers := by
  cases drafts with
  | none => exact parallel_pure (answers_self rfl)
  | some drafts =>
      exact (parallel_enter kept (.cons alike .nil) drafts).bind fun _ _ ended =>
        parallel_pure (answers_rewritten kept alike ended none)

/-- The first match of a rule is rewritten in both runs, or there is none in either. -/
theorem parallel_rewriteFirst
    (kept : likeness.Kept)
    (rule : Field Rule)
    (shown : ∀ name ∈ Register.names register, likeness.shown name) :
    Parallel likeness (perform (.rewriteFirst register rule))
      (perform (.rewriteFirst register rule)) likeness.Answers := by
  refine (parallel_fetch kept shown).bind fun x y alike => ?_
  refine (parallel_ofField rule).bind ?_
  rintro rule _ ⟨rfl, _⟩
  exact parallel_replace kept alike (kept.rewritten rule alike)

theorem parallel_applyAtRoot
    (kept : likeness.Kept)
    (rule : Field Rule)
    (shown : ∀ name ∈ Register.names register, likeness.shown name) :
    Parallel likeness (perform (.applyAtRoot register rule))
      (perform (.applyAtRoot register rule)) likeness.Answers := by
  refine (parallel_fetch kept shown).bind fun x y alike => ?_
  refine (parallel_ofField rule).bind ?_
  rintro rule _ ⟨rfl, _⟩
  exact parallel_replace kept alike (kept.applied rule alike)

theorem parallel_drop
    (kept : likeness.Kept)
    (shown : ∀ name ∈ Register.names register, likeness.shown name) :
    Parallel likeness (perform (.drop register)) (perform (.drop register)) likeness.Answers := by
  refine (parallel_ofField register).bind ?_
  rintro name _ ⟨rfl, rfl⟩
  intro left right alike
  have found := kept.lookup alike.registers (shown name (by simp [Register.names, Except.toOption]))
  have existed : (left.get? name).isSome = (right.get? name).isSome := by
    rw [Workspace.get?, Workspace.get?]
    generalize left.registers.lookup name = first at found
    generalize right.registers.lookup name = second at found
    cases found <;> rfl
  refine ⟨⟨kept.erase name alike.registers, alike.stores, alike.pools⟩, .ok ?_⟩
  rw [existed]
  exact answers_self rfl

/-- A literal of the private pool goes side by side. -/
theorem parallel_internPrivately (kept : likeness.Kept) (text : String) :
    Parallel likeness (perform (.internPrivately text)) (perform (.internPrivately text))
      likeness.Answers := by
  refine (parallel_ofExcept (.refl _)).bind ?_
  rintro value _ rfl left right alike
  obtain ⟨literal, pools, stores⟩ :=
    kept.internIn value (kept.held alike.registers) alike.stores alike.pools
  exact ⟨⟨alike.registers, stores, pools⟩,
    .ok ⟨congrArg (Answer.interned · 0) (kept.node literal), .some literal⟩⟩

theorem parallel_renewPrivate (kept : likeness.Kept) :
    Parallel likeness (perform .renewPrivate) (perform .renewPrivate) likeness.Answers :=
  fun _ _ alike => ⟨⟨alike.registers, alike.stores, kept.renewed⟩, .ok (answers_self rfl)⟩

/-- Every command but a sweep goes side by side. -/
theorem parallel_perform
    (kept : likeness.Kept)
    {command : Command}
    (keeps : command.isSweep = false)
    (shown : ∀ name ∈ command.names, likeness.shown name) :
    Parallel likeness (perform command) (perform command) likeness.Answers := by
  cases command with
  | literal text =>
      refine (parallel_ofExcept (.refl _)).bind ?_
      rintro value _ rfl
      exact parallel_make kept .nil (kept.literal value)
  | constant name text =>
      refine (parallel_ofExcept (.refl _)).bind ?_
      rintro value _ rfl
      exact parallel_make kept .nil (kept.constant name value)
  | standard constant => exact parallel_make kept .nil (kept.constant _ _)
  | output name inner =>
      exact (parallel_read kept shown).bind fun _ _ alike =>
        parallel_make kept .nil (kept.output name alike)
  | derive op operands => exact parallel_derive kept op shown
  | combine op register operand => exact parallel_combine kept op shown
  | floor register =>
      exact (parallel_fetch kept shown).bind fun _ _ alike =>
        parallel_make kept (.cons alike .nil) (kept.floor alike)
  | sum operands =>
      exact (parallel_readAll kept shown).bind fun _ _ alike =>
        parallel_make kept .nil (kept.sum alike)
  | product operands =>
      exact (parallel_readAll kept shown).bind fun _ _ alike =>
        parallel_make kept .nil (kept.product alike)
  | operandAt register index => exact parallel_operandAt kept index shown
  | innerOf register => exact parallel_innerOf kept shown
  | clamp x least greatest => exact parallel_clamp kept shown
  | describe register =>
      exact parallel_answer kept shown fun alike =>
        ⟨congrArg Answer.description (kept.node alike), .none⟩
  | valueOf register =>
      exact parallel_answer kept shown fun alike =>
        ⟨congrArg Answer.number (kept.value alike), .none⟩
  | compare register operand => exact parallel_compare kept shown
  | same x y => exact parallel_same kept shown
  | render register display => exact parallel_render kept display shown
  | derivation register => exact (parallel_derivation kept shown).1
  | explanation register => exact (parallel_derivation kept shown).2
  | simplify register rules => exact parallel_simplify kept rules shown
  | pass register rules => exact parallel_pass kept rules shown
  | applyRule register rule => exact parallel_applyRule kept rule shown
  | rewriteFirst register rule => exact parallel_rewriteFirst kept rule shown
  | applyAtRoot register rule => exact parallel_applyAtRoot kept rule shown
  | matching register => exact parallel_matching kept shown
  | drop register => exact parallel_drop kept shown
  | poolSize => exact parallel_get.bind fun _ _ _ => parallel_pure ⟨rfl, .none⟩
  | internPrivately text => exact parallel_internPrivately kept text
  | renewPrivate => exact parallel_renewPrivate kept
  | sweep | sweepPrivate => exact absurd keeps (by decide)

end

end Action

/-! ## Running a command -/

namespace Workspace

/-- A workspace as it is when a command begins. -/
def begun (workspace : Workspace) : Workspace :=
  { workspace with store := { workspace.store with log := [] } }

/-- The formulas of two answers take their places in the registers. -/
theorem keep_alike
    {likeness : Likeness}
    (kept : likeness.Kept)
    {left right : Workspace}
    (alike : likeness.Workspaces left right)
    (target : Option String)
    {answer twin : Except Fault Answer}
    (answers : Both likeness.Answers answer twin) :
    likeness.Workspaces (left.keep target answer) (right.keep target twin) := by
  cases target with
  | none => exact alike
  | some name =>
      cases answers with
      | error fault => exact alike
      | @ok first second same =>
          have formulas := same.formula
          simp only [keep, Except.toOption, Option.bind_some]
          generalize first.formula? = one at formulas
          generalize second.formula? = other at formulas
          cases formulas with
          | none => exact alike
          | some formulas =>
              exact ⟨kept.put name alike.registers formulas, alike.stores, alike.pools⟩

/-- An answer without a formula leaves nothing for a register. -/
theorem keep_of_formula?_eq_none
    (workspace : Workspace)
    (target : Option String)
    {answer : Answer}
    (none : answer.formula? = none) :
    workspace.keep target (.ok answer) = workspace := by
  simp [keep, Except.toOption, none]

/-- What a sweep leaves of a workspace. -/
theorem run_sweep (workspace : Workspace) (target : Option String) :
    (workspace.run .sweep target).workspace.begun =
      { workspace.begun with
        store.pool := workspace.store.pool.sweep (Store.inUse workspace.held) } :=
  congrArg begun (keep_of_formula?_eq_none _ target rfl)

/-- What a sweep of the private pool leaves of a workspace. -/
theorem run_sweepPrivate (workspace : Workspace) (target : Option String) :
    (workspace.run .sweepPrivate target).workspace.begun =
      { workspace.begun with
        privatePool := workspace.privatePool.sweep (Store.inUse workspace.held) } :=
  congrArg begun (keep_of_formula?_eq_none _ target rfl)

/-- Filling a register does not touch the store. -/
theorem store_keep
    (workspace : Workspace)
    (target : Option String)
    (answer : Except Fault Answer) :
    (workspace.keep target answer).store = workspace.store := by
  unfold keep
  split <;> rfl

/-- What happened is what the log holds afterwards. -/
theorem events_run (workspace : Workspace) (command : Command) (target : Option String) :
    (workspace.run command target).events =
      (workspace.run command target).workspace.store.log :=
  congrArg Store.log (store_keep _ target _).symm

/-- Every command but a sweep is run side by side. -/
theorem run_alike
    {likeness : Likeness}
    (kept : likeness.Kept)
    {left right : Workspace}
    (alike : likeness.Workspaces left.begun right.begun)
    {command : Command}
    (keeps : command.isSweep = false)
    (shown : ∀ name ∈ command.names, likeness.shown name)
    (target : Option String) :
    likeness.Workspaces (left.run command target).workspace (right.run command target).workspace ∧
      Both likeness.Answers (left.run command target).answer (right.run command target).answer := by
  obtain ⟨after, answers⟩ := Action.parallel_perform kept keeps shown _ _ alike
  exact ⟨keep_alike kept after target answers, answers⟩

end Workspace

end ExactFormula
