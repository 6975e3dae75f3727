import ExactFormula.Proofs.Workspace.Abandoned

/-!
# Independence of the pools

The literal pools save nodes and do nothing else.  A script of commands is answered in
the same way whatever the pools of the workspace hold when it begins, whatever else is
held there, and wherever the pools are swept meanwhile; only whether two formulas are one
node may depend on where a script begins.  Where it begins in one and the same workspace,
sweeps do not change that either.
-/

namespace ExactFormula

open Formula

/-! ## Likeness of shape -/

section

variable {α β γ : Type}

theorem forall₂_iff_map_eq {f : α → γ} {g : β → γ} {entries : List α} {others : List β} :
    List.Forall₂ (fun x y => f x = g y) entries others ↔ entries.map f = others.map g := by
  rw [← List.forall₂_eq_eq_eq, List.forall₂_map_left_iff, List.forall₂_map_right_iff]

theorem lookup_filter_ne (name other : String) (registers : List (String × α)) :
    (registers.filter (·.1 ≠ name)).lookup other =
      if other = name then none else registers.lookup other := by
  induction registers with
  | nil => simp
  | cons entry rest inductionHypothesis =>
      obtain ⟨own, x⟩ := entry
      rw [List.lookup_cons]
      by_cases removed : own = name
      · rw [List.filter_cons_of_neg (by simp [removed]), inductionHypothesis]
        by_cases here : other = name
        · rw [if_pos here, if_pos here]
        · rw [if_neg here, if_neg here, beq_false_of_ne (removed ▸ here)]
      · rw [List.filter_cons_of_pos (by simp [removed]), List.lookup_cons, inductionHypothesis]
        by_cases here : other = own
        · simp [here, removed]
        · rw [beq_false_of_ne here]

end

theorem Formula.operands_shape (x : Formula) : x.shape.operands = x.operands.map shape := by
  cases x with
  | derived id op operands value => exact congrArg Formula.operands (relabel_derived ..)
  | literal | constant | output => rfl

theorem Formula.inner?_shape (x : Formula) : x.shape.inner? = x.inner?.map shape := by
  cases x <;> rfl

namespace Likeness

/-- Two runs have formulas of the same shapes in the registers that are shown, and no more. -/
def byShape (shown : String → Prop) : Likeness where
  formulas x y := x.shape = y.shape
  helds _ _ := True
  pools _ _ := True
  stores _ _ := True
  registers registers others := ∀ name, shown name →
    (registers.lookup name).map shape = (others.lookup name).map shape
  shown := shown
  node := shape
  flag _ := false

theorem kept_byShape (shown : String → Prop) : (byShape shown).Kept where
  shape := id
  node := id
  flag _ _ := rfl
  literal _ := rfl
  constant _ _ := rfl
  output name {x y} same := congrArg (labelled name) same
  build {op operands others value} _ alike := by
    have same : operands.map shape = others.map shape := forall₂_iff_map_eq.mp alike
    calc (ofValue op operands value).shape
      _ = ofValue op (operands.map shape) value := relabel_ofValue keepsValues_named ..
      _ = ofValue op (others.map shape) value := by rw [same]
      _ = (ofValue op others value).shape := (relabel_ofValue keepsValues_named ..).symm
  inner {x y} same := rel_of_map_eq (by rw [← inner?_shape, same, inner?_shape])
  operands {x y} same := forall₂_iff_map_eq.mpr (by rw [← operands_shape, same, operands_shape])
  applied rule {x y} same := rel_of_map_eq (by rw [← rule.apply_shape, same, rule.apply_shape])
  rewritten rule {x y} same :=
    rel_of_map_eq (by rw [← rewriteFirst?_shape, same, rewriteFirst?_shape])
  hold _ _ := trivial
  enter {x y held kept store other} _ _ same :=
    ⟨((Store.shape_enter held x store).trans same).trans (Store.shape_enter kept y other).symm,
      trivial⟩
  internIn {pool twin held kept store other} value _ _ _ :=
    ⟨(Store.shape_internIn pool held value store).trans
      (Store.shape_internIn twin kept value other).symm, trivial, trivial⟩
  rewrite _ _ _ _ := trivial
  settled _ _ _ := trivial
  begun _ := trivial
  renewed := trivial
  held _ := trivial
  lookup alike shown := rel_of_map_eq (alike _ shown)
  erase {registers others} name alike other shown := by
    rw [lookup_filter_ne, lookup_filter_ne]
    split
    · rfl
    · exact alike other shown
  put {registers others x y} name alike same other shown := by
    rw [List.lookup_cons, List.lookup_cons, lookup_filter_ne, lookup_filter_ne]
    by_cases here : other = name
    · have shapes : x.shape = y.shape := same
      simp [here, shapes]
    · simpa [here, beq_false_of_ne here] using alike other shown

end Likeness

/-! ## Scripts -/

/-- Commands that are run one after the other, each with the register for its formula. -/
abbrev Script := List (Command × Option String)

/-- A script without its sweeps. -/
def Script.unswept (script : Script) : Script :=
  script.filter fun step => !step.1.isSweep

/-- What is observed of an outcome: the fault, or the answer but for identities and sizes of pools. -/
def Outcome.observed (outcome : Outcome) : Except Fault Answer :=
  outcome.answer.map (Answer.seen shape fun _ => false)

/-- An outcome with identities and events, but without sizes of pools. -/
def Outcome.identified (outcome : Outcome) : Except Fault Answer × List Event :=
  (outcome.answer.map (Answer.seen id id), outcome.events)

namespace Workspace

/-- What the commands of a script lead to, sweeps apart. -/
def replies : Workspace → Script → List Outcome
  | _, [] => []
  | workspace, (command, target) :: rest =>
      let outcome := workspace.run command target
      if command.isSweep then outcome.workspace.replies rest
      else outcome :: outcome.workspace.replies rest

/-- A sweep that keeps two workspaces related may be left out of the script of the first one. -/
theorem replies_unswept
    {γ : Type}
    (related : Workspace → Workspace → Prop)
    (shown : String → Prop)
    {view : Outcome → γ}
    (swept : ∀ {left right command}, related left right → command.isSweep = true →
      ∀ target, related (left.run command target).workspace right)
    (answered : ∀ {left right command}, related left right → command.isSweep = false →
      (∀ name ∈ command.names, shown name) → ∀ target,
        related (left.run command target).workspace (right.run command target).workspace ∧
          view (left.run command target) = view (right.run command target))
    {script : Script}
    (names : ∀ step ∈ script.unswept, ∀ name ∈ step.1.names, shown name)
    {left right : Workspace}
    (alike : related left right) :
    (left.replies script).map view = (right.replies script.unswept).map view := by
  induction script generalizing left right with
  | nil => rfl
  | cons step rest inductionHypothesis =>
      obtain ⟨command, target⟩ := step
      cases sweeps : command.isSweep with
      | true =>
          have skipped : Script.unswept ((command, target) :: rest) = Script.unswept rest :=
            List.filter_cons_of_neg (by simp [sweeps])
          rw [skipped] at names ⊢
          rw [replies, if_pos sweeps]
          exact inductionHypothesis names (swept alike sweeps target)
      | false =>
          have run : Script.unswept ((command, target) :: rest) =
              (command, target) :: Script.unswept rest :=
            List.filter_cons_of_pos (by simp [sweeps])
          rw [run] at names ⊢
          rw [List.forall_mem_cons] at names
          obtain ⟨later, same⟩ := answered alike sweeps names.1 target
          have kept : ¬command.isSweep = true := by simp [sweeps]
          rw [replies, replies, if_neg kept, if_neg kept, List.map_cons, List.map_cons, same,
            inductionHypothesis names.2 later]

/-- Results that correspond are seen as the same. -/
theorem map_seen_eq
    {likeness : Likeness}
    {answer twin : Except Fault Answer}
    (answers : Both likeness.Answers answer twin) :
    answer.map (Answer.seen likeness.node likeness.flag) =
      twin.map (Answer.seen likeness.node likeness.flag) := by
  cases answers with
  | ok same => exact congrArg Except.ok same.seen
  | error fault => rfl

/-- In workspaces with formulas of the same shapes a script is answered in the same way. -/
theorem observed_replies_unswept
    {script : Script}
    (shown : String → Prop)
    (names : ∀ step ∈ script.unswept, ∀ name ∈ step.1.names, shown name)
    {first second : Workspace}
    (alike : ∀ name, shown name → (first.get? name).map shape = (second.get? name).map shape) :
    (first.replies script).map Outcome.observed =
      (second.replies script.unswept).map Outcome.observed := by
  let related (left right : Workspace) : Prop := ∀ name, shown name →
    (left.get? name).map shape = (right.get? name).map shape
  refine replies_unswept related shown ?_ ?_ names alike
  · intro left right command alike sweeps target
    cases command with
    | sweep =>
        intro name named
        have same := congrArg (get? · name) (run_sweep left target)
        exact (congrArg (Option.map shape) same).trans (alike name named)
    | sweepPrivate =>
        intro name named
        have same := congrArg (get? · name) (run_sweepPrivate left target)
        exact (congrArg (Option.map shape) same).trans (alike name named)
    | _ => cases sweeps
  · intro left right command alike keeps named target
    obtain ⟨after, answers⟩ := run_alike (Likeness.kept_byShape shown)
      ⟨alike, trivial, trivial⟩ keeps named target
    exact ⟨after.registers, map_seen_eq answers⟩

/-- From one workspace a script is answered with the same nodes, wherever pools are swept. -/
theorem identified_replies_unswept
    {workspace : Workspace}
    (reached : Reached workspace)
    (script : Script) :
    (workspace.replies script).map Outcome.identified =
      (workspace.replies script.unswept).map Outcome.identified := by
  let related (left right : Workspace) : Prop := Reached left ∧
    (Likeness.outside left.abandoned).Workspaces left.begun right.begun
  have alike : related workspace workspace := by
    refine ⟨reached, ⟨rfl, reached.clear⟩, ⟨rfl, rfl, fun _ => rfl, ?_⟩, fun _ => rfl⟩
    intro id gone
    simp only [Workspace.abandoned, Bool.and_eq_true, decide_eq_true_iff] at gone
    exact gone.1
  refine replies_unswept related (fun _ => True) ?_ ?_ (fun _ _ _ _ => trivial) alike
  · rintro left right command ⟨reached, alike⟩ sweeps target
    have later := reached.run command target
    exact ⟨later, alike_abandoned later (sweep_alike reached alike sweeps target)⟩
  · rintro left right command ⟨reached, alike⟩ keeps _ target
    have later := reached.run command target
    obtain ⟨after, answers⟩ := run_alike (Likeness.kept_outside left.abandoned) alike keeps
      (fun _ _ => trivial) target
    have begun : (Likeness.outside left.abandoned).Workspaces
        (left.run command target).workspace.begun (right.run command target).workspace.begun :=
      ⟨after.registers, (Likeness.kept_outside left.abandoned).begun after.stores, after.pools⟩
    refine ⟨⟨later, alike_abandoned later begun⟩, Prod.ext (map_seen_eq answers) ?_⟩
    exact (events_run ..).trans (after.stores.log.trans (events_run ..).symm)

/-- The literal pools change no answer.  Scripts that differ in their sweeps only are answered in
the same way in any two workspaces whose registers hold formulas of the same shapes, whatever the
pools hold; where both begin in one workspace, they are answered with the same nodes. -/
theorem replies_independent :
    (∀ first second : Workspace,
      ∀ script other : Script, script.unswept = other.unswept →
        (∀ step ∈ script.unswept, ∀ name ∈ step.1.names,
          (first.get? name).map shape = (second.get? name).map shape) →
        (first.replies script).map Outcome.observed =
          (second.replies other).map Outcome.observed) ∧
    (∀ workspace : Workspace, Reached workspace →
      ∀ script other : Script, script.unswept = other.unswept →
        (workspace.replies script).map Outcome.identified =
          (workspace.replies other).map Outcome.identified) := by
  constructor
  · intro first second script other same alike
    let shown (name : String) : Prop := ∃ step ∈ script.unswept, name ∈ step.1.names
    have names : ∀ step ∈ script.unswept, ∀ name ∈ step.1.names, shown name :=
      fun step member name named => ⟨step, member, named⟩
    calc (first.replies script).map Outcome.observed
      _ = (second.replies script.unswept).map Outcome.observed :=
          observed_replies_unswept shown names
            fun name ⟨step, member, named⟩ => alike step member name named
      _ = (second.replies other.unswept).map Outcome.observed := by rw [same]
      _ = (second.replies other).map Outcome.observed :=
          (observed_replies_unswept shown (same ▸ names) fun _ _ => rfl).symm
  · intro workspace reached script other same
    rw [identified_replies_unswept reached script, identified_replies_unswept reached other, same]

/-- Where a register that is not named holds a five, a script that makes two is answered alike. -/
theorem replies_independent_held_elsewhere :
    let empty : Workspace := {}
    let filled : Workspace :=
      { registers := [("elsewhere", .literal (some 3) 5)]
        store := { next := 9, pool := { entries := [⟨5, 3⟩, ⟨7, 4⟩] } } }
    let script : Script :=
      [(.literal "5", some "a"), (.sweep, none), (.literal "5", some "b"),
        (.same (.ok "a") (.ok "b"), none), (.valueOf (.ok "b"), none)]
    (empty.replies script).map Outcome.observed =
        (filled.replies script.unswept).map Outcome.observed ∧
      (empty.replies script).map Outcome.identified =
        (empty.replies script.unswept).map Outcome.identified := by
  intro empty filled script
  have same : script.unswept = script.unswept.unswept := by simp [Script.unswept]
  refine ⟨replies_independent.1 empty filled script script.unswept same ?_,
    replies_independent.2 empty .start script script.unswept same⟩
  simp [script, empty, filled, Script.unswept, Command.isSweep, Command.names, Operand.names,
    Register.names, get?, Except.toOption]

end Workspace

end ExactFormula
