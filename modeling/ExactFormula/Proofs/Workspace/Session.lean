import ExactFormula.Proofs.Store.Ledger
import ExactFormula.Workspace.Run

/-!
# Workspaces and sessions

Whatever commands are run, refused ones included, the formulas in the registers of a
workspace are those of a session with its store.  So what holds of every session
holds of every workspace that commands lead to.
-/

namespace ExactFormula

open Formula

/-- A pool that agrees with the nodes that are in use gives literals of the session. -/
theorem Evolves.internIn
    {pool : Pool}
    {store : Store}
    {held : List Formula}
    (agrees : pool.Agrees store.next held)
    (value : Rat) :
    Evolves store held (store.internIn pool held value).2.2
      ((store.internIn pool held value).1 :: held) := by
  cases found : pool.lookup? (Store.inUse held) value with
  | some id =>
      simp only [Store.internIn, found]
      refine .next (.next .rest (.keep ?_)) (.log _)
      rw [List.forall_mem_cons]
      exact ⟨agrees.inUse_of_lookup?_eq_some found, fun x => .of_mem⟩
  | none =>
      simp only [Store.internIn, found]
      exact .next (.next .rest (.unpooled value)) (.log _)

/-- Drafts that are entered one after the other are held from then on. -/
theorem Evolves.enterAll
    {drafts : List Formula} :
    ∀ {store : Store} {held : List Formula}, (∀ draft ∈ drafts, Drafted held draft) →
      Evolves store held (store.enterAll held drafts).2
        ((store.enterAll held drafts).1 ++ held) := by
  induction drafts with
  | nil => exact fun _ => .rest
  | cons draft rest inductionHypothesis =>
      intro store held drafted
      rw [List.forall_mem_cons] at drafted
      have first : Evolves store held (store.enter held draft).2
          ((store.enter held draft).1 :: held) :=
        .next .rest (.enter drafted.1)
      have later : Evolves (store.enter held draft).2 ((store.enter held draft).1 :: held) _ _ :=
        inductionHypothesis fun x member => (drafted.2 x member).mono fun y =>
          List.mem_cons_of_mem (store.enter held draft).1
      -- Both hold the same formulas; only the first one has moved to the front.
      refine (first.trans later).of_subset fun x member => ?_
      simp only [Store.enterAll, List.cons_append, List.mem_cons, List.mem_append] at member ⊢
      tauto

/--
The registers and a command in progress hold the formulas of a session, and the
private pool has given its literals as in a ledger.
-/
structure Workspace.Holds (workspace : Workspace) (held pending : List Formula) : Prop where
  /-- The formulas in the registers. -/
  registers : workspace.held = held
  /-- The session of all formulas that are held. -/
  session : Session workspace.store (pending ++ held)
  /-- The private pool has given its literals to the session. -/
  privately : ∃ given, Ledger.Reached
    { store := { workspace.store with pool := workspace.privatePool }
      held := pending ++ held
      given }

/-- The private pool agrees with the nodes of the session. -/
theorem Workspace.Holds.agrees
    {workspace : Workspace}
    {held pending : List Formula}
    (holds : workspace.Holds held pending) :
    workspace.privatePool.Agrees workspace.store.next (pending ++ held) := by
  obtain ⟨_, reached⟩ := holds.privately
  exact reached.sound.identities.pooled

/-- A workspace goes on holding a session when its store evolves. -/
theorem Workspace.Holds.evolve
    {workspace : Workspace}
    {held pending kept : List Formula}
    {later : Store}
    (holds : workspace.Holds held pending)
    (evolves : Evolves workspace.store (pending ++ held) later (kept ++ held)) :
    { workspace with store := later }.Holds held kept where
  registers := holds.registers
  session := Evolves.trans holds.session evolves
  privately := by
    obtain ⟨given, reached⟩ := holds.privately
    exact ⟨given, reached.evolve evolves holds.session.wellFormed holds.session.sound⟩

namespace Action

/--
From a workspace that holds some formulas an action leads to one that holds others
with the same registers, and its result, if it is not refused, is as it should be.
-/
def Ensures
    {α : Type}
    (held pending : List Formula)
    (action : Action α)
    (post : α → List Formula → Prop) :
    Prop :=
  ∀ workspace : Workspace, workspace.Holds held pending →
    ∃ kept, (action.run.run workspace).2.Holds held kept ∧
      ∀ value, (action.run.run workspace).1 = .ok value → post value kept

section

variable
  {α β : Type}
  {held pending : List Formula}
  {post : α → List Formula → Prop}
  {x draft : Formula}

theorem ensures_pure {value : α} (same : post value pending) :
    Ensures held pending (pure value) post := by
  intro workspace holds
  refine ⟨pending, holds, fun result returned => ?_⟩
  obtain rfl : value = result := Except.ok.inj returned
  exact same

theorem ensures_throw (fault : Fault) : Ensures held pending (throw fault) post :=
  fun _ holds => ⟨pending, holds, fun _ returned => nomatch returned⟩

/--
Two actions one after the other do well if the second one does well after every result of the
first.
-/
theorem Ensures.bind
    {action : Action β}
    {rest : β → Action α}
    {middle : β → List Formula → Prop}
    (first : Ensures held pending action middle)
    (later : ∀ value kept, middle value kept → Ensures held kept (rest value) post) :
    Ensures held pending (action >>= rest) post := by
  intro workspace holds
  obtain ⟨kept, finish, returned⟩ := first workspace holds
  simp only [ExceptT.run_bind, StateT.run_bind]
  cases outcome : action.run.run workspace with
  | mk result after =>
      rw [outcome] at finish returned
      cases result with
      | error fault => exact ⟨kept, finish, fun _ returned => nomatch returned⟩
      | ok value => exact later value kept (returned value rfl) after finish

/-- What is ensured of a result may be weakened. -/
theorem Ensures.imp
    {action : Action α}
    {weaker : α → List Formula → Prop}
    (ensures : Ensures held pending action post)
    (implies : ∀ value kept, post value kept → weaker value kept) :
    Ensures held pending action weaker := by
  intro workspace holds
  obtain ⟨kept, finish, returned⟩ := ensures workspace holds
  exact ⟨kept, finish, fun value same => implies value kept (returned value same)⟩

theorem ensures_ofExcept (result : Except Failure α) :
    Ensures held pending (ofExcept result) fun value kept =>
      pending = kept ∧ result = .ok value := by
  cases result with
  | ok value => exact ensures_pure ⟨rfl, rfl⟩
  | error cause => exact ensures_throw _

theorem ensures_ofOption (fault : Fault) (result : Option α) :
    Ensures held pending (ofOption fault result) fun value kept =>
      pending = kept ∧ result = some value := by
  cases result with
  | some value => exact ensures_pure ⟨rfl, rfl⟩
  | none => exact ensures_throw fault

theorem ensures_ofField (field : Field α) :
    Ensures held pending (ofField field) fun _ kept => pending = kept := by
  cases field with
  | ok content => exact ensures_pure rfl
  | error fault => exact ensures_throw fault

theorem ensures_get :
    Ensures held pending (get : Action Workspace) fun workspace _ => workspace.held = held := by
  intro workspace holds
  refine ⟨pending, holds, fun result returned => ?_⟩
  obtain rfl : workspace = result := Except.ok.inj returned
  exact holds.registers

/-- The result of an action may be dropped. -/
theorem ensures_discard {action : Action α} (ensures : Ensures held pending action post) :
    Ensures held pending (discard action) fun _ _ => True := by
  have same : discard action = action >>= fun _ => pure () := by
    rw [bind_pure_comp]
    rfl
  rw [same]
  exact ensures.bind fun _ _ _ => ensures_pure trivial

theorem ensures_mapM
    {step : β → Action α}
    {good : α → Prop}
    {values : List β}
    (each : ∀ value ∈ values, ∀ pending : List Formula,
      Ensures held pending (step value) fun result _ => good result) :
    Ensures held pending (values.mapM step) fun results _ => ∀ result ∈ results, good result := by
  induction values generalizing pending with
  | nil => exact ensures_pure (by simp)
  | cons value values inductionHypothesis =>
      rw [List.forall_mem_cons] at each
      rw [List.mapM_cons]
      refine (each.1 pending).bind fun first _ goodFirst => ?_
      refine (inductionHypothesis each.2).bind fun rest _ goodRest => ?_
      exact ensures_pure (List.forall_mem_cons.mpr ⟨goodFirst, goodRest⟩)

theorem ensures_filterM
    {step : β → Action Bool}
    (each : ∀ (value : β) (pending : List Formula),
      Ensures held pending (step value) fun _ _ => True)
    (values : List β) :
    Ensures held pending (values.filterM step) fun _ _ => True := by
  have filtered : ∀ (chosen : List β) (pending : List Formula),
      Ensures held pending (values.filterAuxM step chosen) fun _ _ => True := by
    induction values with
    | nil => exact fun _ _ => ensures_pure trivial
    | cons value values inductionHypothesis =>
        exact fun _ pending => (each value pending).bind fun _ kept _ => inductionHypothesis _ kept
  exact (filtered [] pending).bind fun _ _ _ => ensures_pure trivial

/-! ## Registers -/

/-- What a register gives is held. -/
theorem mem_held_of_get?_eq_some
    {workspace : Workspace}
    {name : String}
    (found : workspace.get? name = some x) :
    x ∈ workspace.held := by
  obtain ⟨before, after, registers, _⟩ := List.lookup_eq_some_iff.mp found
  simp [Workspace.held, registers]

/-- What a register gives is held there. -/
theorem ensures_fetch (register : Register) :
    Ensures held pending (fetch register) fun x _ => x ∈ held := by
  refine (ensures_ofField register).bind fun name kept _ => ?_
  refine ensures_get.bind fun workspace kept same => ?_
  refine (ensures_ofOption _ _).imp fun x _ ⟨_, found⟩ => ?_
  rw [← same]
  exact mem_held_of_get?_eq_some found

/-- An operand is held in a register, or is the draft of a literal. -/
theorem ensures_read (operand : Operand) :
    Ensures held pending (read operand) fun x _ => Drafted held x := by
  cases operand with
  | register register => exact (ensures_fetch register).imp fun x _ => .held
  | number text =>
      exact (ensures_ofExcept _).bind fun value _ _ => ensures_pure (.literal value)
  | integer width text =>
      exact (ensures_ofOption _ _).bind fun value _ _ => ensures_pure (.literal _)

/-- Every operand of a command is held or can be built. -/
theorem ensures_readAll (operands : List Operand) :
    Ensures held pending (operands.mapM read) fun xs _ => ∀ x ∈ xs, Drafted held x :=
  ensures_mapM fun operand _ _ => ensures_read operand

/-! ## The store -/

/-- What changes the store as a session does is done well. -/
theorem ensures_inStore
    {change : List Formula → Store → α × Store}
    (kept : α → List Formula)
    (evolves : ∀ store : Store, Evolves store (pending ++ held) (change held store).2
      (kept (change held store).1 ++ held)) :
    Ensures held pending (inStore change) fun result later => kept result = later := by
  intro workspace holds
  obtain rfl : workspace.held = held := holds.registers
  refine ⟨kept (change workspace.held workspace.store).1,
    holds.evolve (evolves workspace.store), fun result returned => ?_⟩
  rw [← Except.ok.inj returned]

/-- A draft is entered while the formulas that it was made from are held. -/
theorem ensures_enter
    {parts : List Formula}
    (present : ∀ x ∈ parts, x ∈ pending ++ held)
    (drafted : Drafted (parts ++ held) draft) :
    Ensures held pending (enter parts draft) fun x kept => x :: parts = kept := by
  refine ensures_inStore (· :: parts) fun store => ?_
  refine .next (.of_subset .rest fun x member => ?_) (.enter drafted)
  exact (List.mem_append.mp member).elim (present x) (List.mem_append_right pending)

/-- Drafts that are entered one after the other are what is held in the end. -/
theorem ensures_enterAll
    {drafts : List Formula}
    (drafted : ∀ draft ∈ drafts, Drafted held draft) :
    Ensures held pending (enterAll drafts) fun xs kept => xs = kept :=
  ensures_inStore id fun _ =>
    .trans (.of_subset .rest fun _ => List.mem_append_right pending) (.enterAll drafted)

/-- The formula that an answer leaves for a register is held, or is part of one that is. -/
def Answered (held : List Formula) (answer : Answer) (kept : List Formula) : Prop :=
  ∀ x, answer.formula? = some x → InUse (kept ++ held) x

/-- A formula that is held may be the answer. -/
theorem answered_of_mem
    {answer : Answer}
    (formula : answer.formula? = some x)
    (member : x ∈ pending ++ held) :
    Answered held answer pending := by
  intro y same
  rw [formula, Option.some.injEq] at same
  exact same ▸ .of_mem member

/-- What is built on formulas that are held is entered and answered. -/
theorem ensures_make
    {parts : List Formula}
    (present : ∀ x ∈ parts, x ∈ pending ++ held)
    (drafted : Drafted (parts ++ held) draft) :
    Ensures held pending (make parts draft) (Answered held) := by
  refine (ensures_enter present drafted).bind fun x kept same => ensures_pure ?_
  exact answered_of_mem rfl (by simp [← same])

/-! ## Commands -/

theorem answered_of_none {answer : Answer} (formula : answer.formula? = none) :
    Answered held answer pending :=
  fun x same => absurd (formula.symm.trans same) (Option.some_ne_none x).symm

/-- What only looks at a formula leaves everything as it is. -/
theorem ensures_answer
    (register : Register)
    {answer : Formula → Answer}
    (formula : ∀ x, (answer x).formula? = none) :
    Ensures held pending (fetch register >>= fun x => pure (answer x)) (Answered held) :=
  (ensures_fetch register).bind fun x _ _ => ensures_pure (answered_of_none (formula x))

/-- Operands are entered before the operator is applied to them. -/
theorem ensures_derive (op : Field Operator) (operands : List Operand) :
    Ensures held pending (perform (.derive op operands)) (Answered held) := by
  refine (ensures_readAll operands).bind fun drafts _ drafted => ?_
  refine (ensures_enterAll drafted).bind ?_
  rintro xs _ rfl
  refine (ensures_ofField op).bind ?_
  rintro op _ rfl
  have member : ∀ x ∈ xs, x ∈ xs ++ held := fun x => List.mem_append_left held
  cases built : Formula.derive op xs with
  | ok draft =>
      exact ensures_make member (.derive (fun x present => .held (member x present)) built)
  | error cause =>
      exact ensures_throw _

theorem ensures_combine (op : BinaryOperator) (register : Register) (operand : Operand) :
    Ensures held pending (perform (.combine op register operand)) (Answered held) := by
  refine (ensures_fetch register).bind fun x _ inRegister => ?_
  refine (ensures_read operand).bind fun draft _ drafted => ?_
  refine (ensures_enter (by simp [inRegister])
    (drafted.mono fun y => List.mem_append_right [x])).bind ?_
  rintro y _ rfl
  refine (ensures_ofExcept _).bind ?_
  rintro result _ ⟨rfl, built⟩
  exact ensures_make (by simp) (.combine (.held (by simp)) (.held (by simp)) built)

/-- An operand of a formula that is held is part of it. -/
theorem ensures_operandAt (register : Register) (index : Field Nat) :
    Ensures held pending (perform (.operandAt register index)) (Answered held) := by
  refine (ensures_fetch register).bind fun x _ inRegister => ?_
  refine (ensures_ofField index).bind fun index _ _ => ?_
  refine (ensures_ofOption _ _).bind fun operand kept ⟨_, found⟩ => ensures_pure ?_
  rintro y ⟨rfl⟩
  have inUse : InUse (kept ++ held) x := .of_mem (List.mem_append_right kept inRegister)
  exact inUse.part (.of_mem_operands (List.mem_of_getElem? found))

theorem ensures_innerOf (register : Register) :
    Ensures held pending (perform (.innerOf register)) (Answered held) := by
  refine (ensures_fetch register).bind fun x _ inRegister => ?_
  refine (ensures_ofOption _ _).bind fun inner kept ⟨_, found⟩ => ensures_pure ?_
  rintro y ⟨rfl⟩
  have inUse : InUse (kept ++ held) x := .of_mem (List.mem_append_right kept inRegister)
  exact inUse.part (.of_inner?_eq_some found)

/-- The formula that is chosen is one of the three that are held. -/
theorem ensures_clamp (x least greatest : Register) :
    Ensures held pending (perform (.clamp x least greatest)) (Answered held) := by
  refine (ensures_fetch x).bind fun x _ first => ?_
  refine (ensures_fetch least).bind fun least _ second => ?_
  refine (ensures_fetch greatest).bind fun greatest kept third => ?_
  refine ensures_pure (answered_of_mem rfl (List.mem_append_right kept ?_))
  unfold Formula.clamp
  split_ifs
  · exact second
  · exact third
  · exact first

theorem ensures_render (register : Register) (display : Field DisplayChoice) :
    Ensures held pending (perform (.render register display)) (Answered held) := by
  refine (ensures_fetch register).bind fun x _ _ => ?_
  refine (ensures_ofField display).bind fun choice _ _ => ?_
  cases choice with
  | settings settings => exact ensures_pure (answered_of_none rfl)
  | json text =>
      cases read : Settings.read? text with
      | some settings =>
          simp only [read]
          exact ensures_pure (answered_of_none rfl)
      | none =>
          simp only [read]
          exact ensures_throw _

/-- The operand that a formula is compared with is entered, and let go. -/
theorem ensures_compare (register : Register) (operand : Operand) :
    Ensures held pending (perform (.compare register operand)) (Answered held) := by
  refine (ensures_fetch register).bind fun x _ inRegister => ?_
  refine (ensures_read operand).bind fun draft kept drafted => ?_
  have each : ∀ copy ∈ List.replicate 6 draft, ∀ pending : List Formula,
      Ensures held pending (enter [x] copy) fun _ _ => True := by
    intro copy member pending
    rw [List.eq_of_mem_replicate member]
    have parts := drafted.mono fun y => List.mem_append_right [x]
    exact (ensures_enter (by simp [inRegister]) parts).imp fun _ _ _ => trivial
  exact (ensures_discard (ensures_mapM each)).bind
    fun _ _ _ => ensures_pure (answered_of_none rfl)

/-- What rules would make of a formula is entered, and let go. -/
theorem ensures_matching (register : Register) :
    Ensures held pending (perform (.matching register)) (Answered held) := by
  refine (ensures_fetch register).bind fun x _ inRegister => ?_
  refine (ensures_filterM (fun rule pending => ?_) Rule.all).bind
    fun _ _ _ => ensures_pure (answered_of_none rfl)
  cases applied : rule.apply x with
  | none => exact ensures_pure trivial
  | some draft =>
      have drafted : Drafted ([x] ++ held) draft := .applied (.held (by simp)) applied
      exact (ensures_discard (ensures_enter (by simp [inRegister]) drafted)).bind
        fun _ _ _ => ensures_pure trivial

/-- A formula that is held is rewritten in the store. -/
theorem ensures_rewrite
    {change : List Formula → Store → α × Store}
    (after : α → Formula)
    (inRegister : x ∈ held)
    (evolves : ∀ store : Store, Evolves store (x :: x :: held) (change held store).2
      (after (change held store).1 :: held)) :
    Ensures held pending (inStore change) fun result kept => [after result] = kept := by
  refine ensures_inStore (fun result => [after result]) fun store => ?_
  have subset : ∀ y ∈ x :: x :: held, y ∈ pending ++ held := by
    have present : x ∈ pending ++ held := List.mem_append_right pending inRegister
    rw [List.forall_mem_cons, List.forall_mem_cons]
    exact ⟨present, present, fun y => List.mem_append_right pending⟩
  exact .trans (.of_subset .rest subset) (evolves store)

/-- Simplification is answered with a formula that is held afterwards. -/
theorem ensures_simplify (register : Register) (rules : Field (List Rule)) :
    Ensures held pending (perform (.simplify register rules)) (Answered held) := by
  refine (ensures_fetch register).bind fun x _ inRegister => ?_
  refine (ensures_ofField rules).bind fun rules _ _ => ?_
  refine (ensures_rewrite id inRegister fun store =>
    (Evolves.rest.simplify rules).of_cons_cons).bind fun y kept same => ensures_pure ?_
  exact answered_of_mem rfl (by simp [← same])

theorem ensures_pass (register : Register) (rules : Field (List Rule)) :
    Ensures held pending (perform (.pass register rules)) (Answered held) := by
  refine (ensures_fetch register).bind fun x _ inRegister => ?_
  refine (ensures_ofField rules).bind fun rules _ _ => ?_
  refine (ensures_rewrite Prod.fst inRegister fun store =>
    (Evolves.rest.pass rules).of_cons_cons.of_cons_cons).bind fun y kept same => ensures_pure ?_
  exact answered_of_mem rfl (by simp [← same])

theorem ensures_applyRule (register : Register) (rule : Field Rule) :
    Ensures held pending (perform (.applyRule register rule)) (Answered held) := by
  refine (ensures_fetch register).bind fun x _ inRegister => ?_
  refine (ensures_ofField rule).bind fun rule _ _ => ?_
  refine (ensures_rewrite Prod.fst inRegister fun store =>
    (Evolves.rest.byRule rule).of_cons_cons.of_cons_cons).bind fun y kept same => ensures_pure ?_
  exact answered_of_mem rfl (by simp [← same])

/-- A draft in the place of a formula that is held is entered and answered. -/
theorem ensures_replace
    (inRegister : x ∈ held)
    (drafted : Drafted ([x] ++ held) draft) :
    Ensures held pending (enter [x] draft >>= fun y => pure (.rewritten x y none))
      (Answered held) := by
  refine (ensures_enter (by simp [inRegister]) drafted).bind fun y kept same => ensures_pure ?_
  exact answered_of_mem rfl (by simp [← same])

theorem ensures_rewriteFirst (register : Register) (rule : Field Rule) :
    Ensures held pending (perform (.rewriteFirst register rule)) (Answered held) := by
  refine (ensures_fetch register).bind fun x _ inRegister => ?_
  refine (ensures_ofField rule).bind fun rule _ _ => ?_
  cases rewritten : x.rewriteFirst? rule.apply with
  | none => exact ensures_pure (answered_of_none rfl)
  | some draft => exact ensures_replace inRegister (.rewritten (.held (by simp)) rewritten)

theorem ensures_applyAtRoot (register : Register) (rule : Field Rule) :
    Ensures held pending (perform (.applyAtRoot register rule)) (Answered held) := by
  refine (ensures_fetch register).bind fun x _ inRegister => ?_
  refine (ensures_ofField rule).bind fun rule _ _ => ?_
  cases applied : rule.apply x with
  | none => exact ensures_pure (answered_of_none rfl)
  | some draft => exact ensures_replace inRegister (.applied (.held (by simp)) applied)

/-- A sweep leaves every formula that is held. -/
theorem ensures_sweep : Ensures held [] (perform .sweep) (Answered held) := by
  intro workspace holds
  obtain rfl : workspace.held = held := holds.registers
  refine ⟨[], holds.evolve (.next .rest .sweep), fun answer returned => ?_⟩
  obtain rfl := Except.ok.inj returned
  exact answered_of_none rfl

/-! ## The private pool -/

/-- A literal that the private pool gives is held from then on. -/
theorem ensures_internPrivately (text : String) :
    Ensures held [] (perform (.internPrivately text)) (Answered held) := by
  refine (ensures_ofExcept _).bind ?_
  rintro value _ ⟨rfl, _⟩ workspace holds
  obtain rfl : workspace.held = held := holds.registers
  -- The literal may come from the private pool, which no transition of a session knows.
  let interned := workspace.store.internIn workspace.privatePool workspace.held value
  have evolves := Evolves.internIn holds.agrees value
  have session : Session _ (interned.1 :: workspace.held) := Evolves.trans holds.session evolves
  obtain ⟨_, reached⟩ := holds.privately
  refine ⟨[interned.1], ⟨rfl, session, _, reached.internIn value⟩, fun answer returned => ?_⟩
  obtain rfl := Except.ok.inj returned
  exact answered_of_mem rfl (List.mem_cons_self ..)

theorem ensures_sweepPrivate : Ensures held [] (perform .sweepPrivate) (Answered held) := by
  intro workspace holds
  obtain rfl : workspace.held = held := holds.registers
  obtain ⟨_, reached⟩ := holds.privately
  refine ⟨[], ⟨rfl, holds.session.next (.log _), _, reached.next (.sweep _)⟩,
    fun answer returned => ?_⟩
  obtain rfl := Except.ok.inj returned
  exact answered_of_none rfl

theorem ensures_renewPrivate : Ensures held [] (perform .renewPrivate) (Answered held) := by
  intro workspace holds
  refine ⟨[], ⟨holds.registers, holds.session, _, .start holds.session⟩, fun answer returned => ?_⟩
  obtain rfl := Except.ok.inj returned
  exact answered_of_none rfl

/-! ## Every command -/

/-- Commands that change no register leave the formulas of the registers in a session. -/
theorem ensures_perform
    (command : Command)
    (changesNone : ∀ register, command ≠ .drop register) :
    Ensures held [] (perform command) (Answered held) := by
  cases command with
  | literal text =>
      exact (ensures_ofExcept _).bind fun value _ _ => ensures_make (by simp) (.literal value)
  | constant name text =>
      exact (ensures_ofExcept _).bind fun value _ _ => ensures_make (by simp) (.constant name value)
  | standard constant => exact ensures_make (by simp) (.constant constant.name constant.value)
  | output name inner =>
      exact (ensures_read inner).bind fun x _ drafted =>
        ensures_make (by simp) (.output name drafted)
  | derive op operands => exact ensures_derive op operands
  | combine op register operand => exact ensures_combine op register operand
  | floor register =>
      exact (ensures_fetch register).bind fun x _ inRegister =>
        ensures_make (by simp [inRegister]) (.floor (.held (by simp)))
  | sum operands =>
      exact (ensures_readAll operands).bind fun xs _ drafted =>
        ensures_make (by simp) (.sum drafted)
  | product operands =>
      exact (ensures_readAll operands).bind fun xs _ drafted =>
        ensures_make (by simp) (.product drafted)
  | operandAt register index => exact ensures_operandAt register index
  | innerOf register => exact ensures_innerOf register
  | clamp x least greatest => exact ensures_clamp x least greatest
  | describe register => exact ensures_answer register fun _ => rfl
  | valueOf register => exact ensures_answer register fun _ => rfl
  | compare register operand => exact ensures_compare register operand
  | same x y =>
      exact (ensures_fetch x).bind fun _ _ _ => ensures_answer y fun _ => rfl
  | render register display => exact ensures_render register display
  | derivation register => exact ensures_answer register fun _ => rfl
  | explanation register => exact ensures_answer register fun _ => rfl
  | simplify register rules => exact ensures_simplify register rules
  | pass register rules => exact ensures_pass register rules
  | applyRule register rule => exact ensures_applyRule register rule
  | rewriteFirst register rule => exact ensures_rewriteFirst register rule
  | applyAtRoot register rule => exact ensures_applyAtRoot register rule
  | matching register => exact ensures_matching register
  | drop register => exact absurd rfl (changesNone register)
  | sweep => exact ensures_sweep
  | poolSize => exact ensures_get.bind fun _ _ _ => ensures_pure (answered_of_none rfl)
  | internPrivately text => exact ensures_internPrivately text
  | sweepPrivate => exact ensures_sweepPrivate
  | renewPrivate => exact ensures_renewPrivate

end

end Action

namespace Workspace

variable {workspace : Workspace} {held pending : List Formula}

/-- The registers are filled with formulas that are in use, and nothing else is held any more. -/
theorem Holds.refill
    (holds : workspace.Holds held pending)
    {registers : List (String × Formula)}
    (parts : ∀ entry ∈ registers, InUse (pending ++ held) entry.2) :
    { workspace with registers := registers }.Holds (registers.map Prod.snd) [] := by
  have inUse : ∀ x ∈ registers.map Prod.snd, InUse (pending ++ held) x := by
    intro x member
    obtain ⟨entry, present, rfl⟩ := List.mem_map.mp member
    exact parts entry present
  obtain ⟨given, reached⟩ := holds.privately
  exact ⟨rfl, holds.session.next (.keep inUse), given, reached.next (.hold inUse)⟩

/-- Registers that stay as they are, and no others, hold their formulas still. -/
theorem Holds.release
    (holds : workspace.Holds held pending)
    {registers : List (String × Formula)}
    (subset : ∀ entry ∈ registers, entry ∈ workspace.registers) :
    { workspace with registers := registers }.Holds (registers.map Prod.snd) [] := by
  obtain rfl : workspace.held = held := holds.registers
  refine holds.refill fun entry member => .of_mem (List.mem_append_right pending ?_)
  exact List.mem_map_of_mem (subset entry member)

/-- The formula of an answer takes its place in a register. -/
theorem Holds.keep
    (holds : workspace.Holds held pending)
    (target : Option String)
    {answer : Except Fault Answer}
    (answered : ∀ value, answer = .ok value → Action.Answered held value pending) :
    (workspace.keep target answer).Holds (workspace.keep target answer).held [] := by
  have unchanged : workspace.Holds workspace.held [] := holds.release fun _ => id
  cases target with
  | none => exact unchanged
  | some name =>
      cases answer with
      | error fault => exact unchanged
      | ok value =>
          have inUse := answered value rfl
          obtain rfl : workspace.held = held := holds.registers
          cases formula : value.formula? with
          | none =>
              have same : workspace.keep (some name) (.ok value) = workspace := by
                simp [Workspace.keep, Except.toOption, formula]
              rw [same]
              exact unchanged
          | some x =>
              have same : workspace.keep (some name) (.ok value) = workspace.put name x := by
                simp [Workspace.keep, Except.toOption, formula]
              rw [same]
              refine holds.refill (List.forall_mem_cons.mpr ⟨inUse x formula, ?_⟩)
              intro entry member
              refine .of_mem (List.mem_append_right pending ?_)
              exact List.mem_map_of_mem (List.mem_filter.mp member).1

/-- A command leads from a session to a session, whether or not it is refused. -/
theorem Holds.run
    (holds : workspace.Holds held [])
    (command : Command)
    (target : Option String) :
    (workspace.run command target).workspace.Holds
      (workspace.run command target).workspace.held [] := by
  have begun := holds.evolve (.next .rest (.log []))
  -- Emptying a register is the one command that changes the registers itself.
  by_cases drops : ∃ register, command = .drop register
  · obtain ⟨register, rfl⟩ := drops
    cases register with
    | error fault => exact begun.keep target fun _ returned => nomatch returned
    | ok name =>
        have fewer : ∀ entry ∈ workspace.registers.filter (·.1 ≠ name),
            entry ∈ workspace.registers :=
          fun entry member => (List.mem_filter.mp member).1
        refine (begun.release fewer).keep target fun answer returned => ?_
        obtain rfl := Except.ok.inj returned
        exact Action.answered_of_none rfl
  · obtain ⟨kept, finish, answered⟩ := Action.ensures_perform command
      (fun register same => drops ⟨register, same⟩) _ begun
    exact finish.keep target answered

/-- The workspaces that commands lead to. -/
inductive Reached : Workspace → Prop
  /-- The empty workspace. -/
  | start : Reached {}
  /-- A command is run, and its formula put into a register. -/
  | run
      {workspace : Workspace} :
      Reached workspace → ∀ (command : Command) (target : Option String),
      Reached (workspace.run command target).workspace

/-- The registers of a workspace that commands lead to hold the formulas of a session. -/
theorem Reached.holds (reached : Reached workspace) : workspace.Holds workspace.held [] := by
  induction reached with
  | start => exact ⟨rfl, .start, [], .start .start⟩
  | run _ command target inductionHypothesis => exact inductionHypothesis.run command target

/-- The formulas in the registers of a workspace are always those of a session. -/
theorem Reached.session (reached : Reached workspace) :
    Session workspace.store workspace.held :=
  reached.holds.session

/-- Whatever commands are run, both pools of a workspace have given their literals as in ledgers. -/
theorem Reached.ledgers (reached : Reached workspace) :
    (∃ given, Ledger.Reached { store := workspace.store, held := workspace.held, given }) ∧
      ∃ given, Ledger.Reached
        { store := { workspace.store with pool := workspace.privatePool }
          held := workspace.held
          given } :=
  ⟨Ledger.exists_reached_of_session reached.session, reached.holds.privately⟩

end Workspace

end ExactFormula
