import ExactFormula.Proofs.Derivation.Order
import ExactFormula.Proofs.Rewrite.Lockstep
import ExactFormula.Workspace.Run
import Mathlib.Data.List.Forall2

/-!
# Runs that go side by side

Two runs in different stores have something in common when what is done to both of
them keeps it.  A likeness says what it is for formulas, pools, stores and registers,
and how much of it an answer lets one see.  If each single thing that a store does
keeps a likeness, so do building, simplification, and every command.
-/

namespace ExactFormula

open Formula
open scoped Relator

/-- What two runs have in common, and what is seen of their formulas. -/
structure Likeness where
  /-- Formulas that correspond. -/
  formulas : Formula → Formula → Prop
  /-- Lists of formulas that are held in two runs. -/
  helds : List Formula → List Formula → Prop
  /-- Pools that correspond. -/
  pools : Pool → Pool → Prop
  /-- Stores that correspond. -/
  stores : Store → Store → Prop
  /-- Registers that correspond. -/
  registers : List (String × Formula) → List (String × Formula) → Prop
  /-- The registers whose formulas correspond one by one. -/
  shown : String → Prop
  /-- What is seen of a formula. -/
  node : Formula → Formula
  /-- What is seen of whether two formulas are one node. -/
  flag : Bool → Bool

/-- Two results are both there and correspond, or are both missing for the same cause. -/
inductive Both {ε α β : Type} (post : α → β → Prop) : Except ε α → Except ε β → Prop
  | ok {x : α} {y : β} : post x y → Both post (.ok x) (.ok y)
  | error (cause : ε) : Both post (.error cause) (.error cause)

theorem Both.refl {ε α : Type} (result : Except ε α) : Both Eq result result := by
  cases result with
  | ok x => exact .ok rfl
  | error cause => exact .error cause

theorem rel_refl {α : Type} (found : Option α) : Option.Rel Eq found found := by
  cases found with
  | none => exact .none
  | some x => exact .some rfl

/-- Lists that correspond entry by entry correspond at every index. -/
theorem rel_getElem?
    {α β : Type}
    {relation : α → β → Prop}
    {entries : List α}
    {others : List β}
    (related : List.Forall₂ relation entries others)
    (index : Nat) :
    Option.Rel relation entries[index]? others[index]? := by
  induction related generalizing index with
  | nil => exact .none
  | cons first _ inductionHypothesis =>
      cases index with
      | zero => exact .some first
      | succ index => exact inductionHypothesis index

namespace Likeness

/-- Whatever is done to two things that correspond gives two things that correspond. -/
structure Kept (likeness : Likeness) : Prop where
  /-- Formulas that correspond are structurally equal. -/
  shape : ∀ {x y}, likeness.formulas x y → x.shape = y.shape
  /-- Formulas that correspond look the same. -/
  node : ∀ {x y}, likeness.formulas x y → likeness.node x = likeness.node y
  /-- Whether two formulas are one node looks the same. -/
  flag : ∀ {x y first second}, likeness.formulas x y → likeness.formulas first second →
    likeness.flag (Action.isSame x first) = likeness.flag (Action.isSame y second)
  literal : ∀ value, likeness.formulas (ofRat value) (ofRat value)
  constant : ∀ name value, likeness.formulas (named name value) (named name value)
  output : ∀ name {x y}, likeness.formulas x y →
    likeness.formulas (labelled name x) (labelled name y)
  build : ∀ {op operands others value}, op.arity.accepts operands.length = true →
    List.Forall₂ likeness.formulas operands others →
    likeness.formulas (ofValue op operands value) (ofValue op others value)
  inner : ∀ {x y}, likeness.formulas x y → Option.Rel likeness.formulas x.inner? y.inner?
  operands : ∀ {x y}, likeness.formulas x y →
    List.Forall₂ likeness.formulas x.operands y.operands
  /-- A rule matches two formulas that correspond, or none of them. -/
  applied : ∀ (rule : Rule) {x y}, likeness.formulas x y →
    Option.Rel likeness.formulas (rule.apply x) (rule.apply y)
  rewritten : ∀ (rule : Rule) {x y}, likeness.formulas x y →
    Option.Rel likeness.formulas (x.rewriteFirst? rule.apply) (y.rewriteFirst? rule.apply)
  /-- One more formula is held in both runs. -/
  hold : ∀ {x y held kept}, likeness.formulas x y → likeness.helds held kept →
    likeness.helds (x :: held) (y :: kept)
  enter : ∀ {x y held kept} {store other : Store}, likeness.helds held kept →
    likeness.stores store other → likeness.formulas x y →
    likeness.formulas (store.enter held x).1 (other.enter kept y).1 ∧
      likeness.stores (store.enter held x).2 (other.enter kept y).2
  internIn : ∀ {pool twin held kept} {store other : Store} (value : Rat),
    likeness.helds held kept → likeness.stores store other → likeness.pools pool twin →
    likeness.formulas (store.internIn pool held value).1 (other.internIn twin kept value).1 ∧
      likeness.pools (store.internIn pool held value).2.1 (other.internIn twin kept value).2.1 ∧
      likeness.stores (store.internIn pool held value).2.2 (other.internIn twin kept value).2.2
  /-- A rewrite is recorded. -/
  rewrite : ∀ {store other : Store} {before after first second} (rule : Rule),
    likeness.stores store other → likeness.formulas before first →
    likeness.formulas after second →
    likeness.stores (store.record (.rewrite rule before after))
      (other.record (.rewrite rule first second))
  /-- The end of a simplification is recorded. -/
  settled : ∀ {store other : Store} (passes hits : Nat), likeness.stores store other →
    likeness.stores (store.record (.settled passes hits)) (other.record (.settled passes hits))
  /-- The log is emptied. -/
  begun : ∀ {store other : Store}, likeness.stores store other →
    likeness.stores { store with log := [] } { other with log := [] }
  /-- New pools. -/
  renewed : likeness.pools {} {}
  held : ∀ {registers others}, likeness.registers registers others →
    likeness.helds (registers.map Prod.snd) (others.map Prod.snd)
  lookup : ∀ {registers others name}, likeness.registers registers others →
    likeness.shown name → Option.Rel likeness.formulas (registers.lookup name) (others.lookup name)
  erase : ∀ {registers others} (name : String), likeness.registers registers others →
    likeness.registers (registers.filter (·.1 ≠ name)) (others.filter (·.1 ≠ name))
  put : ∀ {registers others x y} (name : String), likeness.registers registers others →
    likeness.formulas x y →
    likeness.registers ((name, x) :: registers.filter (·.1 ≠ name))
      ((name, y) :: others.filter (·.1 ≠ name))

/-- Rewritings correspond when as many rules fired. -/
structure Rewritings (likeness : Likeness) (first second : Rewriting) : Prop where
  formula : likeness.formulas first.formula second.formula
  fired : first.fired = second.fired
  store : likeness.stores first.store second.store

namespace Kept

variable {likeness : Likeness} (kept : likeness.Kept)

include kept

/-- More formulas may be held in both runs. -/
theorem holdAll
    {parts twins held others : List Formula}
    (alike : List.Forall₂ likeness.formulas parts twins)
    (holds : likeness.helds held others) :
    likeness.helds (parts ++ held) (twins ++ others) := by
  induction alike with
  | nil => exact holds
  | cons first _ inductionHypothesis => exact kept.hold first inductionHypothesis

/-! ## Building -/

section

variable {x y first second : Formula} {operands others : List Formula}

theorem value (alike : likeness.formulas x y) : x.value = y.value :=
  value_of_shape_eq (kept.shape alike)

theorem values (alike : List.Forall₂ likeness.formulas operands others) :
    operands.map Formula.value = others.map Formula.value := by
  induction alike with
  | nil => rfl
  | cons first _ inductionHypothesis =>
      rw [List.map_cons, List.map_cons, kept.value first, inductionHypothesis]

/-- Two formulas that are built of two each by one operator correspond if their parts do. -/
theorem pair
    {op : Operator}
    (binary : op.arity.accepts 2 = true)
    (left : likeness.formulas x y)
    (right : likeness.formulas first second)
    (value : Rat) :
    likeness.formulas (ofValue op [x, first] value) (ofValue op [y, second] value) :=
  kept.build binary (.cons left (.cons right .nil))

/-- Formulas that correspond have sums that correspond. -/
theorem add (left : likeness.formulas x y) (right : likeness.formulas first second) :
    likeness.formulas (x.add first) (y.add second) := by
  rw [Formula.add, Formula.add, kept.value left, kept.value right]
  exact kept.pair rfl left right _

theorem mul (left : likeness.formulas x y) (right : likeness.formulas first second) :
    likeness.formulas (x.mul first) (y.mul second) := by
  rw [Formula.mul, Formula.mul, kept.value left, kept.value right]
  exact kept.pair rfl left right _

theorem sum (alike : List.Forall₂ likeness.formulas operands others) :
    likeness.formulas (Formula.sum operands) (Formula.sum others) := by
  cases alike with
  | nil => exact kept.literal 0
  | cons start links =>
      have joined : (likeness.formulas ⇒ likeness.formulas ⇒ likeness.formulas)
          Formula.add Formula.add := fun _ _ left _ _ right => kept.add left right
      exact List.rel_foldl joined start links

/-- Lists that correspond have products that correspond. -/
theorem product (alike : List.Forall₂ likeness.formulas operands others) :
    likeness.formulas (Formula.product operands) (Formula.product others) := by
  cases alike with
  | nil => exact kept.literal 1
  | cons start links =>
      have joined : (likeness.formulas ⇒ likeness.formulas ⇒ likeness.formulas)
          Formula.mul Formula.mul := fun _ _ left _ _ right => kept.mul left right
      exact List.rel_foldl joined start links

theorem floor (alike : likeness.formulas x y) : likeness.formulas x.floor y.floor := by
  rw [Formula.floor, Formula.floor, kept.value alike]
  exact kept.build rfl (.cons alike .nil)

/-- An operator makes a formula of operands that correspond, or refuses them for one cause. -/
theorem derive (op : Operator) (alike : List.Forall₂ likeness.formulas operands others) :
    Both likeness.formulas (Formula.derive op operands) (Formula.derive op others) := by
  rw [Formula.derive, Formula.derive, ← kept.values alike]
  cases evaluated : op.apply (operands.map Formula.value) with
  | error cause => exact .error cause
  | ok value =>
      have accepted := Operator.accepts_of_apply_eq_ok evaluated
      rw [List.length_map] at accepted
      exact .ok (kept.build accepted alike)

/-- Two formulas are joined, or refused for one cause. -/
theorem combine
    (op : BinaryOperator)
    (left : likeness.formulas x y)
    (right : likeness.formulas first second) :
    Both likeness.formulas (x.combine op first) (y.combine op second) := by
  cases op with
  | add => exact .ok (kept.add left right)
  | mul => exact .ok (kept.mul left right)
  | sub =>
      rw [Formula.combine, Formula.combine, sub, sub, kept.value left, kept.value right]
      exact .ok (kept.pair rfl left right _)
  | div =>
      rw [Formula.combine, Formula.combine, div, div, kept.value left, kept.value right]
      cases Number.divide y.value second.value with
      | error cause => exact .error cause
      | ok value => exact .ok (kept.pair rfl left right value)
  | pow =>
      rw [Formula.combine, Formula.combine, pow, pow, kept.value left, kept.value right]
      cases Number.power y.value second.value with
      | error cause => exact .error cause
      | ok value => exact .ok (kept.pair rfl left right value)

/-- The same one of three formulas is chosen. -/
theorem clamp
    {greatest top : Formula}
    (alike : likeness.formulas x y)
    (lower : likeness.formulas first second)
    (upper : likeness.formulas greatest top) :
    likeness.formulas (x.clamp first greatest) (y.clamp second top) := by
  rw [Formula.clamp, Formula.clamp, kept.value alike, kept.value lower, kept.value upper]
  split
  · exact lower
  · split
    · exact upper
    · exact alike

end

/-! ## Rewriting -/

section

variable {x y : Formula} {held others : List Formula} {store other : Store}

/-- Drafts that correspond are entered one by one in both runs. -/
theorem enterAll
    {drafts twins : List Formula}
    (holds : likeness.helds held others)
    (stores : likeness.stores store other)
    (alike : List.Forall₂ likeness.formulas drafts twins) :
    List.Forall₂ likeness.formulas (store.enterAll held drafts).1 (other.enterAll others twins).1 ∧
      likeness.stores (store.enterAll held drafts).2 (other.enterAll others twins).2 := by
  induction alike generalizing held others store other with
  | nil => exact ⟨.nil, stores⟩
  | cons first _ inductionHypothesis =>
      obtain ⟨entered, stored⟩ := kept.enter holds stores first
      obtain ⟨rest, finished⟩ := inductionHypothesis (kept.hold entered holds) stored
      exact ⟨.cons entered rest, finished⟩

/-- Rewriting is made of things that keep the likeness. -/
theorem lockstep :
    Rewriting.Lockstep likeness.formulas likeness.helds likeness.stores where
  hold := kept.hold
  enter := kept.enter
  rewrite := kept.rewrite
  settled := kept.settled

/-- A rule is exhausted alike in both runs. -/
theorem byRule
    (rule : Rule)
    (holds : likeness.helds held others)
    (alike : likeness.formulas x y)
    (stores : likeness.stores store other) :
    Rewritings likeness (Rewriting.byRule rule held x store)
      (Rewriting.byRule rule others y other) :=
  let result := kept.lockstep.byRule (kept.rewritten rule) holds alike stores
  ⟨result.formula, result.fired, result.store⟩

/-- A pass rewrites alike in both runs. -/
theorem pass
    (rules : List Rule)
    (holds : likeness.helds held others)
    (alike : likeness.formulas x y)
    (stores : likeness.stores store other) :
    Rewritings likeness (Rewriting.pass rules held x store)
      (Rewriting.pass rules others y other) :=
  let result := kept.lockstep.pass (fun rule _ => kept.rewritten rule) holds alike stores
  ⟨result.formula, result.fired, result.store⟩

/-- Simplification goes side by side. -/
theorem simplify
    (rules : List Rule)
    (holds : likeness.helds held others)
    (alike : likeness.formulas x y)
    (stores : likeness.stores store other) :
    likeness.formulas (store.simplify rules held x).1 (other.simplify rules others y).1 ∧
      likeness.stores (store.simplify rules held x).2 (other.simplify rules others y).2 :=
  kept.lockstep.simplify (fun rule _ => kept.rewritten rule) holds alike stores

end

end Kept
end Likeness
end ExactFormula
