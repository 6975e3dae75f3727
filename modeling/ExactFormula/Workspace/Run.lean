import ExactFormula.Workspace.Command

/-!
# Running commands

A workspace holds formulas in named registers.  A formula stays in use while a
register or a command in progress holds it; a register lets go of its formula
only after the command that fills it anew is done.

A command reads all of its operands before it enters the first of them into the
store, so one that is refused for an operand leaves the store as it was.  What
was entered before a later fault stays there.
-/

namespace ExactFormula

/-- Registers, the store of their formulas, and a private literal pool. -/
structure Workspace where
  /-- The formulas in the registers. -/
  registers : List (String × Formula) := []
  /-- The store. -/
  store : Store := {}
  /-- The private pool. -/
  privatePool : Pool := {}

/-- Something done in a workspace, which may be refused. -/
abbrev Action (α : Type) := ExceptT Fault (StateM Workspace) α

namespace Workspace

/-- The formulas in the registers. -/
def held (workspace : Workspace) : List Formula :=
  workspace.registers.map Prod.snd

/-- The formula in a register. -/
def get? (workspace : Workspace) (name : String) : Option Formula :=
  workspace.registers.lookup name

/-- Empty a register. -/
def erase (workspace : Workspace) (name : String) : Workspace :=
  { workspace with registers := workspace.registers.filter (·.1 ≠ name) }

/-- Put a formula into a register. -/
def put (workspace : Workspace) (name : String) (x : Formula) : Workspace :=
  { workspace with registers := (name, x) :: workspace.registers.filter (·.1 ≠ name) }

end Workspace

namespace Action

/-- Change the store, given the formulas in the registers. -/
def inStore
    {α : Type}
    (change : List Formula → Store → α × Store) :
    Action α :=
  modifyGet fun workspace =>
    let (result, store) := change workspace.held workspace.store
    (result, { workspace with store })

/-- Enter a draft while some formulas besides those in the registers are held. -/
def enter (pending : List Formula) (draft : Formula) : Action Formula :=
  inStore fun held store => store.enter (pending ++ held) draft

/-- Enter drafts from left to right. -/
def enterAll (drafts : List Formula) : Action (List Formula) :=
  inStore fun held store => store.enterAll held drafts

/-- Go on with a result or be refused for its failure. -/
def ofExcept {α : Type} : Except Failure α → Action α
  | .ok result => pure result
  | .error cause => throw (.refused (.failure cause))

/-- Go on with a result or be refused for the lack of it. -/
def ofOption {α : Type} (fault : Fault) : Option α → Action α
  | some result => pure result
  | none => throw fault

/-- Go on with what a field holds or be refused for the fault in it. -/
def ofField {α : Type} : Field α → Action α
  | .ok content => pure content
  | .error fault => throw fault

/-- The formula in a register. -/
def fetch (register : Register) : Action Formula := do
  let name ← ofField register
  ofOption (.emptyRegister name) ((← get).get? name)

/-- The formula of an operand: one from a register, or the draft of a literal. -/
def read : Operand → Action Formula
  | .register register => fetch register
  | .number text => do
      pure (.ofRat (← ofExcept (Number.read text)))
  | .integer width text => do
      pure (.ofRat (← ofOption (.outOfRange width) (width.read? text)))

/-- Make a formula of drafts and of formulas that are held. -/
def make (pending : List Formula) (draft : Formula) : Action Answer := do
  pure (.formula (← enter pending draft))

/-- Whether two formulas are one node. -/
def isSame (x y : Formula) : Bool :=
  x.id? = y.id?

/-- Carry out a command. -/
def perform : Command → Action Answer
  | .literal text => do
      make [] (.ofRat (← ofExcept (Number.read text)))
  | .constant name text => do
      make [] (.named name (← ofExcept (Number.read text)))
  | .standard constant => make [] constant.formula
  | .output name inner => do
      make [] (.labelled name (← read inner))
  | .derive op operands => do
      let operands ← enterAll (← operands.mapM read)
      let op ← ofField op
      match Formula.derive op operands with
      | .ok draft => make operands draft
      | .error cause => throw (.refused cause)
  | .combine op x y => do
      let x ← fetch x
      let y ← enter [x] (← read y)
      make [x, y] (← ofExcept (x.combine op y))
  | .floor x => do
      let x ← fetch x
      make [x] x.floor
  | .sum operands => do
      make [] (.sum (← operands.mapM read))
  | .product operands => do
      make [] (.product (← operands.mapM read))
  | .operandAt x index => do
      let x ← fetch x
      let index ← ofField index
      pure (.formula (← ofOption .noOperand x.operands[index]?))
  | .innerOf x => do
      let x ← fetch x
      pure (.formula (← ofOption .notAnOutput x.inner?))
  | .clamp x least greatest => do
      let x ← fetch x
      let least ← fetch least
      let greatest ← fetch greatest
      let chosen := x.clamp least greatest
      pure (.chosen chosen [isSame chosen x, isSame chosen least, isSame chosen greatest])
  | .describe x => do
      pure (.description (← fetch x))
  | .valueOf x => do
      pure (.number (← fetch x).value)
  | .compare x y => do
      let x ← fetch x
      let y ← read y
      -- The comparison and its five predicates enter the second operand once each.
      discard ((List.replicate 6 y).mapM (enter [x]))
      pure (.order (Number.compare x.value y.value))
  | .same x y => do
      let x ← fetch x
      let y ← fetch y
      pure (.same (isSame x y))
  | .render x display => do
      let x ← fetch x
      match ← ofField display with
      | .settings settings => pure (.text (settings.render x))
      | .json text =>
          match Settings.read? text with
          | some settings => pure (.text (settings.render x))
          | none => throw .badSettings
  | .derivation x => do
      pure (.steps (← fetch x).derivation)
  | .explanation x => do
      pure (.table (← fetch x).explanation)
  | .simplify x rules => do
      let x ← fetch x
      let rules ← ofField rules
      let after ← inStore fun held store => store.simplify rules (x :: held) x
      pure (.rewritten x after none)
  | .pass x rules => do
      let x ← fetch x
      let rules ← ofField rules
      let (after, fired) ← inStore fun held store =>
        let result := Rewriting.pass rules (x :: held) x store
        ((result.formula, result.fired), result.store)
      pure (.rewritten x after (some (fired ≠ 0)))
  | .applyRule x rule => do
      let x ← fetch x
      let rule ← ofField rule
      let (after, fired) ← inStore fun held store =>
        let result := Rewriting.byRule rule (x :: held) x store
        ((result.formula, result.fired), result.store)
      pure (.rewritten x after (some (fired ≠ 0)))
  | .rewriteFirst x rule => do
      let x ← fetch x
      let rule ← ofField rule
      match x.rewriteFirst? rule.apply with
      | some draft => pure (.rewritten x (← enter [x] draft) none)
      | none => pure .unchanged
  | .applyAtRoot x rule => do
      let x ← fetch x
      let rule ← ofField rule
      match rule.apply x with
      | some draft => pure (.rewritten x (← enter [x] draft) none)
      | none => pure .unchanged
  | .matching x => do
      let x ← fetch x
      let matched ← Rule.all.filterM fun rule => do
        match rule.apply x with
        | some draft => discard (enter [x] draft); pure true
        | none => pure false
      pure (.rules matched)
  | .drop register => do
      let name ← ofField register
      let workspace ← get
      set (workspace.erase name)
      pure (.dropped (workspace.get? name).isSome)
  | .sweep => do
      inStore fun held store =>
        let (evicted, store) := store.sweep held
        (.swept evicted store.pool.size, store)
  | .poolSize => do
      pure (.poolSize (← get).store.pool.size)
  | .internPrivately text => do
      let value ← ofExcept (Number.read text)
      modifyGet fun workspace =>
        let (literal, pool, store) :=
          workspace.store.internIn workspace.privatePool workspace.held value
        (.interned literal pool.size, { workspace with privatePool := pool, store })
  | .sweepPrivate =>
      modifyGet fun workspace =>
        let (evicted, pool, store) :=
          workspace.store.sweepIn workspace.privatePool workspace.held
        (.privateSwept evicted pool.size, { workspace with privatePool := pool, store })
  | .renewPrivate => do
      modify fun workspace => { workspace with privatePool := {} }
      pure (.privateSize 0)

end Action

/-- What a command leads to. -/
structure Outcome where
  /-- The answer, or why there is none. -/
  answer : Except Fault Answer
  /-- What happened meanwhile. -/
  events : List Event
  /-- The workspace afterwards. -/
  workspace : Workspace

namespace Workspace

/-- Put the formula of an answer into a register, if there is one of each. -/
def keep
    (workspace : Workspace)
    (target : Option String)
    (answer : Except Fault Answer) :
    Workspace :=
  match target, answer.toOption.bind Answer.formula? with
  | some name, some x => workspace.put name x
  | _, _ => workspace

/-- Carry out a command, and put the formula that it makes into the target register. -/
def run
    (workspace : Workspace)
    (command : Command)
    (target : Option String) :
    Outcome :=
  let start := { workspace with store := { workspace.store with log := [] } }
  let (answer, finish) := (Action.perform command).run.run start
  { answer
    events := finish.store.log
    workspace := finish.keep target answer }

end Workspace
end ExactFormula
