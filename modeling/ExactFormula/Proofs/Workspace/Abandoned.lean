import ExactFormula.Proofs.Workspace.Parallel
import ExactFormula.Proofs.Workspace.Session

/-!
# Abandoned identities

An identity that is not in use any more is never used again: no formula that is held
mentions it, and every identity that is given is new.  So two runs in which the pools
differ in the entries of abandoned identities only give the same nodes, with the same
identities.  A sweep removes such entries, and nothing else.
-/

namespace ExactFormula

open Formula

/-- The nodes of a formula have identities that are not abandoned, or none. -/
def Formula.Avoids (abandoned : NodeId → Bool) (x : Formula) : Prop :=
  Everywhere (fun node => ∀ id, node.id? = some id → abandoned id = false) x

namespace Pool

/-- Two pools have the same entries, those of abandoned identities apart. -/
def AlikeOutside (abandoned : NodeId → Bool) (pool twin : Pool) : Prop :=
  ∀ value, (pool.entry? value).filter (fun entry => !abandoned entry.id) =
    (twin.entry? value).filter fun entry => !abandoned entry.id

/-- The entry of a value after one has been put in place. -/
theorem find?_put (added : PoolEntry) (entries : List PoolEntry) (value : Rat) :
    (put added entries).find? (·.value = value) =
      if added.value = value then some added else entries.find? (·.value = value) := by
  induction entries with
  | nil =>
      by_cases same : added.value = value
      · simp [put, same]
      · simp [put, same]
  | cons entry rest inductionHypothesis =>
      by_cases replaced : entry.value = added.value
      · by_cases same : added.value = value
        · simp [put, replaced, same]
        · simp [put, replaced, same]
      · by_cases here : entry.value = value
        · have other : added.value ≠ value := fun same => replaced (here.trans same.symm)
          simp [put, here, other, other.symm]
        · simp [put, replaced, here, inductionHypothesis]

section

variable {abandoned : NodeId → Bool} {pool twin : Pool} {value : Rat}

theorem AlikeOutside.register
    (alike : pool.AlikeOutside abandoned twin)
    (value : Rat)
    (id : NodeId) :
    (pool.register value id).AlikeOutside abandoned (twin.register value id) := by
  intro other
  rw [Pool.register, Pool.register, entry?, entry?, find?_put, find?_put]
  split
  · rfl
  · exact alike other

/-- The pools give the same literals of those that are in use. -/
theorem AlikeOutside.lookup?_eq
    (alike : pool.AlikeOutside abandoned twin)
    {inUse : NodeId → Bool}
    (avoids : ∀ id, inUse id = true → abandoned id = false)
    (value : Rat) :
    pool.lookup? inUse value = twin.lookup? inUse value := by
  have outside (found : Option PoolEntry) : (found.map (·.id)).filter inUse =
      ((found.filter fun entry => !abandoned entry.id).map (·.id)).filter inUse := by
    cases found with
    | none => rfl
    | some entry =>
        cases used : inUse entry.id with
        | false => by_cases left : abandoned entry.id = true <;> simp [Option.filter, used, left]
        | true => simp [Option.filter, used, avoids entry.id used]
  rw [lookup?, lookup?, outside, alike value, ← outside]

/-- More identities are abandoned. -/
theorem AlikeOutside.mono
    (alike : pool.AlikeOutside abandoned twin)
    {more : NodeId → Bool}
    (subset : ∀ id, abandoned id = true → more id = true) :
    pool.AlikeOutside more twin := by
  have outside (found : Option PoolEntry) : found.filter (fun entry => !more entry.id) =
      (found.filter fun entry => !abandoned entry.id).filter fun entry => !more entry.id := by
    cases found with
    | none => rfl
    | some entry =>
        cases gone : abandoned entry.id with
        | false => simp [Option.filter, gone]
        | true => simp [Option.filter, gone, subset entry.id gone]
  intro value
  rw [outside, alike value, ← outside]

theorem entry?_sweep (distinct : Distinct pool.entries) (inUse : NodeId → Bool) (value : Rat) :
    Pool.entry? (pool.sweep inUse) value =
      (pool.entry? value).filter fun entry => inUse entry.id := by
  have kept : Distinct (pool.sweep inUse).entries :=
    List.Nodup.sublist (List.filter_sublist.map _) distinct
  ext entry
  rw [Pool.entry?_eq_some_iff kept, Option.filter_eq_some_iff, entry?_eq_some_iff distinct]
  simp only [Pool.sweep, List.mem_filter]
  tauto

/-- A sweep removes entries of identities that are abandoned. -/
theorem AlikeOutside.sweep
    (alike : pool.AlikeOutside abandoned twin)
    (distinct : Distinct pool.entries)
    {inUse : NodeId → Bool}
    (gone : ∀ entry ∈ pool.entries, inUse entry.id = false → abandoned entry.id = true) :
    (pool.sweep inUse).AlikeOutside abandoned twin := by
  intro value
  rw [Pool.entry?_sweep distinct, ← alike value]
  cases found : pool.entry? value with
  | none => rfl
  | some entry =>
      have member := (Pool.entry?_eq_some_iff distinct).mp found
      cases used : inUse entry.id with
      | true => simp [Option.filter, used]
      | false => simp [Option.filter, used, gone entry member.1 used]

end

end Pool

namespace Store

/-- Two stores are the same but for the entries of abandoned identities. -/
structure AlikeOutside (abandoned : NodeId → Bool) (store other : Store) : Prop where
  next : store.next = other.next
  log : store.log = other.log
  pool : store.pool.AlikeOutside abandoned other.pool
  /-- What is abandoned has been given. -/
  given : ∀ id, abandoned id = true → id < store.next

namespace AlikeOutside

variable
  {abandoned : NodeId → Bool}
  {store other : Store}
  {held : List Formula}

theorem record (alike : store.AlikeOutside abandoned other) (event : Event) :
    (store.record event).AlikeOutside abandoned (other.record event) :=
  ⟨alike.next, congrArg (· ++ [event]) alike.log, alike.pool, alike.given⟩

theorem fresh (alike : store.AlikeOutside abandoned other) :
    store.fresh.2.AlikeOutside abandoned other.fresh.2 :=
  ⟨congrArg (· + 1) alike.next, alike.log, alike.pool, fun id gone =>
    Nat.lt_succ_of_lt (alike.given id gone)⟩

/-- The next identity is not an abandoned one. -/
theorem next_eq_false (alike : store.AlikeOutside abandoned other) :
    abandoned store.next = false :=
  Bool.eq_false_iff.mpr fun gone => Nat.lt_irrefl _ (alike.given store.next gone)

/-- A node that is made under the next identity avoids what is abandoned, if its parts do. -/
theorem avoids_next
    (alike : store.AlikeOutside abandoned other)
    (id : NodeId)
    (own : some store.next = some id) :
    abandoned id = false :=
  Option.some.inj own ▸ alike.next_eq_false

/-- An identity that is in use is not an abandoned one. -/
theorem eq_false_of_inUse
    (avoids : ∀ x ∈ held, x.Avoids abandoned)
    {id : NodeId}
    (used : Store.inUse held id = true) :
    abandoned id = false := by
  obtain ⟨node, ⟨x, member, occurs⟩, own⟩ := Store.inUse_iff.mp used
  exact avoids x member node occurs id own

/-- The same literal is given for a value. -/
theorem internIn
    (alike : store.AlikeOutside abandoned other)
    (avoids : ∀ x ∈ held, x.Avoids abandoned)
    {pool twin : Pool}
    (pools : pool.AlikeOutside abandoned twin)
    (value : Rat) :
    (store.internIn pool held value).1 = (other.internIn twin held value).1 ∧
      (store.internIn pool held value).1.Avoids abandoned ∧
      (store.internIn pool held value).2.1.AlikeOutside abandoned
        (other.internIn twin held value).2.1 ∧
      (store.internIn pool held value).2.2.AlikeOutside abandoned
        (other.internIn twin held value).2.2 := by
  have same := pools.lookup?_eq (fun id => eq_false_of_inUse avoids) value
  cases found : pool.lookup? (Store.inUse held) value with
  | some id =>
      have used : Store.inUse held id = true := (Option.filter_eq_some_iff.mp found).2
      unfold Store.internIn
      rw [← same, found]
      refine ⟨rfl, everywhere_literal.mpr fun given own => ?_, pools, alike.record _⟩
      exact Option.some.inj own ▸ eq_false_of_inUse avoids used
  | none =>
      have registered : (pool.register value store.next).AlikeOutside abandoned
          (twin.register value other.next) := by
        rw [← alike.next]
        exact pools.register value store.next
      unfold Store.internIn
      rw [← same, found]
      exact ⟨congrArg (Formula.literal · value) (congrArg some alike.next),
        everywhere_literal.mpr alike.avoids_next, registered, alike.fresh.record _⟩

theorem intern
    (alike : store.AlikeOutside abandoned other)
    (avoids : ∀ x ∈ held, x.Avoids abandoned)
    (value : Rat) :
    (store.intern held value).1 = (other.intern held value).1 ∧
      (store.intern held value).1.Avoids abandoned ∧
      (store.intern held value).2.AlikeOutside abandoned (other.intern held value).2 := by
  obtain ⟨same, literal, pools, stores⟩ := alike.internIn avoids alike.pool value
  exact ⟨same, literal, stores.next, stores.log, pools, stores.given⟩

mutual

/-- A draft is entered as the same node. -/
theorem enter :
    ∀ (draft : Formula) {held : List Formula} {store other : Store},
      store.AlikeOutside abandoned other → (∀ x ∈ held, x.Avoids abandoned) →
      draft.Avoids abandoned →
        (store.enter held draft).1 = (other.enter held draft).1 ∧
          (store.enter held draft).1.Avoids abandoned ∧
          (store.enter held draft).2.AlikeOutside abandoned (other.enter held draft).2
  | .literal none value, held, store, other, alike, avoids, _ => alike.intern avoids value
  | .constant none name value, held, store, other, alike, avoids, _ =>
      ⟨congrArg (Formula.constant · name value) (congrArg some alike.next),
        everywhere_constant.mpr alike.avoids_next, alike.fresh⟩
  | .output none name inner, held, store, other, alike, avoids, draft => by
      obtain ⟨_, part⟩ := everywhere_output.mp draft
      obtain ⟨same, inside, stores⟩ := enter inner alike avoids part
      unfold Store.enter
      refine ⟨?_, everywhere_output.mpr ⟨stores.avoids_next, inside⟩, stores.fresh⟩
      exact congrArg₂ (Formula.output · name) (congrArg some stores.next) same
  | .derived none op operands value, held, store, other, alike, avoids, draft => by
      obtain ⟨_, parts⟩ := everywhere_derived.mp draft
      obtain ⟨same, inside, stores⟩ := enterAll operands alike avoids parts
      unfold Store.enter
      refine ⟨?_, everywhere_derived.mpr ⟨stores.avoids_next, inside⟩, stores.fresh⟩
      exact congrArg₂ (Formula.derived · op · value) (congrArg some stores.next) same
  | .literal (some id) value, held, store, other, alike, avoids, draft => ⟨rfl, draft, alike⟩
  | .constant (some id) name value, held, store, other, alike, avoids, draft =>
      ⟨rfl, draft, alike⟩
  | .output (some id) name inner, held, store, other, alike, avoids, draft => ⟨rfl, draft, alike⟩
  | .derived (some id) op operands value, held, store, other, alike, avoids, draft =>
      ⟨rfl, draft, alike⟩

/-- Drafts are entered as the same nodes. -/
theorem enterAll :
    ∀ (drafts : List Formula) {held : List Formula} {store other : Store},
      store.AlikeOutside abandoned other → (∀ x ∈ held, x.Avoids abandoned) →
      (∀ draft ∈ drafts, draft.Avoids abandoned) →
        (store.enterAll held drafts).1 = (other.enterAll held drafts).1 ∧
          (∀ x ∈ (store.enterAll held drafts).1, x.Avoids abandoned) ∧
          (store.enterAll held drafts).2.AlikeOutside abandoned (other.enterAll held drafts).2
  | [], _, _, _, alike, _, drafts => ⟨rfl, drafts, alike⟩
  | draft :: rest, held, store, other, alike, avoids, drafts => by
      rw [List.forall_mem_cons] at drafts
      obtain ⟨same, first, stores⟩ := enter draft alike avoids drafts.1
      obtain ⟨others, later, finished⟩ :=
        enterAll rest stores (List.forall_mem_cons.mpr ⟨first, avoids⟩) drafts.2
      simp only [Store.enterAll, ← same, ← others, true_and]
      exact ⟨List.forall_mem_cons.mpr ⟨first, later⟩, finished⟩

end

end AlikeOutside

end Store

/-! ## Likeness outside abandoned identities -/

section

variable {α : Type} {property : α → Prop}

theorem eq_of_forall₂
    {entries others : List α}
    (alike : List.Forall₂ (fun x y => x = y ∧ property x) entries others) :
    entries = others ∧ ∀ x ∈ entries, property x := by
  induction alike with
  | nil => exact ⟨rfl, nofun⟩
  | cons first _ inductionHypothesis =>
      exact ⟨congrArg₂ List.cons first.1 inductionHypothesis.1,
        List.forall_mem_cons.mpr ⟨first.2, inductionHypothesis.2⟩⟩

theorem rel_self {found : Option α} (holds : ∀ x, found = some x → property x) :
    Option.Rel (fun x y => x = y ∧ property x) found found := by
  cases found with
  | none => exact .none
  | some x => exact .some ⟨rfl, holds x rfl⟩

end

/-- A formula that can be held while some identities are abandoned. -/
def Formula.Clear (abandoned : NodeId → Bool) (x : Formula) : Prop :=
  WellFormed x ∧ x.Avoids abandoned

theorem Formula.inherited_clear (abandoned : NodeId → Bool) : Inherited (Clear abandoned) :=
  inherited_everywhere fun node draft id own => by rw [draft] at own; cases own

namespace Likeness

/-- Two runs have the same formulas and registers; their pools differ in what is abandoned only. -/
def outside (abandoned : NodeId → Bool) : Likeness where
  formulas x y := x = y ∧ x.Clear abandoned
  helds held kept := held = kept ∧ ∀ x ∈ held, x.Clear abandoned
  pools := Pool.AlikeOutside abandoned
  stores := Store.AlikeOutside abandoned
  registers registers others := registers = others ∧ ∀ entry ∈ registers, entry.2.Clear abandoned
  shown _ := True
  node := id
  flag := id

theorem kept_outside (abandoned : NodeId → Bool) : (outside abandoned).Kept where
  shape alike := congrArg Formula.shape alike.1
  node alike := alike.1
  flag left right := congrArg₂ Action.isSame left.1 right.1
  literal value := ⟨rfl, (inherited_clear abandoned).literal value⟩
  constant name value := ⟨rfl, (inherited_clear abandoned).constant name value⟩
  output name := fun ⟨same, clear⟩ =>
    ⟨congrArg (labelled name) same, (inherited_clear abandoned).output name clear⟩
  build := by
    intro op operands others value accepted alike
    obtain ⟨rfl, clear⟩ := eq_of_forall₂ alike
    exact ⟨rfl, (inherited_clear abandoned).build accepted clear⟩
  inner := by
    rintro x _ ⟨rfl, clear⟩
    exact rel_self fun inner found =>
      (inherited_clear abandoned).of_occurs (.of_inner?_eq_some found) clear
  operands := by
    rintro x _ ⟨rfl, clear⟩
    refine List.forall₂_same.mpr fun operand member => ⟨rfl, ?_⟩
    exact (inherited_clear abandoned).of_occurs (.of_mem_operands member) clear
  applied := by
    rintro rule x _ ⟨rfl, clear⟩
    exact rel_self fun _ => (inherited_clear abandoned).of_apply_eq_some clear
  rewritten := by
    rintro rule x _ ⟨rfl, clear⟩
    exact rel_self fun _ => (inherited_clear abandoned).of_rewriteFirst?_eq_some clear
  hold := by
    rintro x _ held _ ⟨rfl, clear⟩ ⟨rfl, holds⟩
    exact ⟨rfl, List.forall_mem_cons.mpr ⟨clear, holds⟩⟩
  enter := by
    rintro x _ held _ store other ⟨rfl, holds⟩ stores ⟨rfl, clear⟩
    obtain ⟨same, avoids, stored⟩ := stores.enter x (fun y member => (holds y member).2) clear.2
    exact ⟨⟨same, wellFormed_of_shape_eq (Store.shape_enter held x store) clear.1, avoids⟩, stored⟩
  internIn := by
    rintro pool twin held _ store other value ⟨rfl, holds⟩ stores pools
    obtain ⟨same, avoids, pools, stored⟩ :=
      stores.internIn (fun y member => (holds y member).2) pools value
    have wellFormed := wellFormed_of_shape_eq (Store.shape_internIn pool held value store)
      (wellFormed_literal none value)
    exact ⟨⟨same, wellFormed, avoids⟩, pools, stored⟩
  rewrite := by
    rintro store other before after _ _ rule stores ⟨rfl, _⟩ ⟨rfl, _⟩
    exact stores.record _
  settled passes hits stores := stores.record _
  begun stores := ⟨stores.next, rfl, stores.pool, stores.given⟩
  renewed value := rfl
  held := by
    rintro registers _ ⟨rfl, clear⟩
    exact ⟨rfl, List.forall_mem_map.mpr clear⟩
  lookup := by
    rintro registers _ name ⟨rfl, clear⟩ _
    refine rel_self fun x found => ?_
    obtain ⟨before, after, rfl, _⟩ := List.lookup_eq_some_iff.mp found
    exact clear (name, x) (by simp)
  erase := by
    rintro registers _ name ⟨rfl, clear⟩
    exact ⟨rfl, fun entry member => clear entry (List.mem_filter.mp member).1⟩
  put := by
    rintro registers _ x _ name ⟨rfl, others⟩ ⟨rfl, clear⟩
    refine ⟨rfl, List.forall_mem_cons.mpr ⟨clear, ?_⟩⟩
    exact fun entry member => others entry (List.mem_filter.mp member).1

end Likeness

/-! ## Sweeping one of two workspaces -/

namespace Workspace

/-- The identities that have been given in a workspace and are not in use any more. -/
def abandoned (workspace : Workspace) (id : NodeId) : Bool :=
  decide (id < workspace.store.next) && !Store.inUse workspace.held id

variable {left right : Workspace} {abandoned : NodeId → Bool}

/-- What the registers of a workspace hold is not abandoned. -/
theorem Reached.clear (reached : Reached left) :
    ∀ entry ∈ left.registers, entry.2.Clear left.abandoned := by
  intro entry member
  have held : entry.2 ∈ left.held := List.mem_map_of_mem member
  refine ⟨reached.session.wellFormed entry.2 held, fun node occurs id own => ?_⟩
  have used : Store.inUse left.held id = true :=
    anyMentions_of_mem held (mentions_of_occurs occurs own)
  simp [Workspace.abandoned, used]

/-- An entry of a sound pool that is not in use is abandoned. -/
theorem abandoned_of_sound
    {pool : Pool}
    {given : List Formula}
    (reached : Ledger.Reached
      { store := { left.store with pool := pool }, held := left.held, given })
    {entry : PoolEntry}
    (member : entry ∈ pool.entries)
    (dead : Store.inUse left.held entry.id = false) :
    left.abandoned entry.id = true := by
  have before : entry.id < left.store.next := (reached.sound.identities.pooled entry member).1
  simp [Workspace.abandoned, before, dead]

/-- Whatever two workspaces differ in is abandoned by now. -/
theorem alike_abandoned
    (reached : Reached left)
    (alike : (Likeness.outside abandoned).Workspaces left.begun right.begun) :
    (Likeness.outside left.abandoned).Workspaces left.begun right.begun := by
  obtain ⟨⟨same, clear⟩, stores, pools⟩ := alike
  have gone : ∀ id, abandoned id = true → left.abandoned id = true := by
    intro id lost
    have given : id < left.store.next := stores.given id lost
    have unused : Store.inUse left.held id = false := by
      by_contra used
      rw [Bool.not_eq_false] at used
      have avoids := Store.AlikeOutside.eq_false_of_inUse
        (List.forall_mem_map.mpr fun entry member => (clear entry member).2) used
      simp [avoids] at lost
    simp [Workspace.abandoned, given, unused]
  refine ⟨⟨same, reached.clear⟩, ⟨stores.next, stores.log, stores.pool.mono gone, ?_⟩,
    pools.mono gone⟩
  intro id lost
  simp only [Workspace.abandoned, Bool.and_eq_true, decide_eq_true_iff] at lost
  exact lost.1

/-- A sweep of one of two workspaces removes what is abandoned from one of its pools. -/
theorem sweep_alike
    (reached : Reached left)
    (alike : (Likeness.outside left.abandoned).Workspaces left.begun right.begun)
    {command : Command}
    (sweeps : command.isSweep = true)
    (target : Option String) :
    (Likeness.outside left.abandoned).Workspaces (left.run command target).workspace.begun
      right.begun := by
  obtain ⟨⟨_, pooled⟩, _, privately⟩ := reached.ledgers
  cases command with
  | sweep =>
      rw [run_sweep]
      have swept := alike.stores.pool.sweep pooled.sound.distinct
        fun entry member => abandoned_of_sound pooled member
      exact ⟨alike.registers, ⟨alike.stores.next, rfl, swept, alike.stores.given⟩, alike.pools⟩
  | sweepPrivate =>
      rw [run_sweepPrivate]
      have swept := alike.pools.sweep privately.sound.distinct
        fun entry member => abandoned_of_sound privately member
      exact ⟨alike.registers, alike.stores, swept⟩
  | _ => cases sweeps

end Workspace

end ExactFormula
