import ExactFormula.Proofs.Store.Session

/-!
# Identities

Every node that is in use has an identity, and no two of them have the same one.
The pool gives an identity out again only for a literal of the value that it was
made for; everything else that is entered is new.
-/

namespace ExactFormula

open Formula

/-- Two formulas are one and the same node of a store. -/
def SameNode (x y : Formula) : Prop :=
  ∃ id, x.id? = some id ∧ y.id? = some id

namespace Formula

mutual

/-- An identity that a formula mentions is that of one of its nodes. -/
theorem occurs_of_mentions
    {id : NodeId} :
    ∀ x : Formula, mentions id x = true → ∃ node, Occurs node x ∧ node.id? = some id
  | literal own value, mentioned => ⟨_, .root, by simpa [mentions, id?] using mentioned⟩
  | constant own name value, mentioned => ⟨_, .root, by simpa [mentions, id?] using mentioned⟩
  | output own name inner, mentioned => by
      rw [mentions, Bool.or_eq_true, decide_eq_true_iff] at mentioned
      obtain here | inside := mentioned
      · exact ⟨_, .root, here⟩
      · obtain ⟨node, occurs, same⟩ := occurs_of_mentions inner inside
        exact ⟨node, .inner occurs, same⟩
  | derived own op operands value, mentioned => by
      rw [mentions, Bool.or_eq_true, decide_eq_true_iff] at mentioned
      obtain here | inside := mentioned
      · exact ⟨_, .root, here⟩
      · obtain ⟨node, ⟨x, member, occurs⟩, same⟩ := inUse_of_anyMentions operands inside
        exact ⟨node, .operand member occurs, same⟩

/-- An identity that is mentioned belongs to a node that is in use. -/
theorem inUse_of_anyMentions
    {id : NodeId} :
    ∀ held : List Formula, anyMentions id held = true → ∃ node, InUse held node ∧ node.id? = some id
  | [], mentioned => by simp [anyMentions] at mentioned
  | x :: rest, mentioned => by
      rw [anyMentions, Bool.or_eq_true] at mentioned
      obtain first | later := mentioned
      · obtain ⟨node, occurs, same⟩ := occurs_of_mentions x first
        exact ⟨node, inUse_cons_iff.mpr (.inl occurs), same⟩
      · obtain ⟨node, inUse, same⟩ := inUse_of_anyMentions rest later
        exact ⟨node, inUse_cons_iff.mpr (.inr inUse), same⟩

end

end Formula

namespace Pool

/-- An entry that is put into a pool is the only new one. -/
theorem mem_put
    {added entry : PoolEntry}
    {entries : List PoolEntry}
    (member : entry ∈ put added entries) :
    entry = added ∨ entry ∈ entries := by
  induction entries with
  | nil => exact .inl (List.mem_singleton.mp member)
  | cons first rest inductionHypothesis =>
      rw [put] at member
      split at member
      · obtain rfl | later := List.mem_cons.mp member
        · exact .inl rfl
        · exact .inr (List.mem_cons_of_mem first later)
      · obtain rfl | later := List.mem_cons.mp member
        · exact .inr (List.mem_cons_self ..)
        · exact (inductionHypothesis later).imp_right (List.mem_cons_of_mem first)

/-- What is in use with an identity of the pool is the literal that was made for the value. -/
def Agrees (pool : Pool) (next : NodeId) (held : List Formula) : Prop :=
  ∀ entry ∈ pool.entries, entry.id < next ∧
    ∀ node, InUse held node → node.id? = some entry.id →
      node = .literal (some entry.id) entry.value

namespace Agrees

variable {pool : Pool} {next : NodeId} {held kept : List Formula} {value : Rat} {id : NodeId}

theorem empty : ({} : Pool).Agrees next held := by
  simp [Agrees]

theorem of_inUse
    (agrees : pool.Agrees next held)
    (parts : ∀ node, InUse kept node → InUse held node) :
    pool.Agrees next kept :=
  fun entry member =>
    ⟨(agrees entry member).1, fun node inUse => (agrees entry member).2 node (parts node inUse)⟩

/-- A pool may be given a literal, if nothing else in use has its identity. -/
theorem register
    (agrees : pool.Agrees next held)
    (given : id < next)
    (literal : ∀ node, InUse held node → node.id? = some id → node = .literal (some id) value) :
    (pool.register value id).Agrees next held := by
  intro entry member
  obtain rfl | before := mem_put member
  · exact ⟨given, literal⟩
  · exact agrees entry before

theorem sweep (agrees : pool.Agrees next held) (inUse : NodeId → Bool) :
    (pool.sweep inUse).Agrees next held :=
  fun entry member => agrees entry (List.mem_filter.mp member).1

/-- The literal that the pool has for a value is in use. -/
theorem inUse_of_lookup?_eq_some
    (agrees : pool.Agrees next held)
    (found : pool.lookup? (Store.inUse held) value = some id) :
    InUse held (.literal (some id) value) := by
  simp only [lookup?, entry?, Option.filter_eq_some_iff, Option.map_eq_some_iff,
    List.find?_eq_some_iff_append, decide_eq_true_iff] at found
  obtain ⟨⟨entry, ⟨rfl, before, after, entries, _⟩, rfl⟩, mentioned⟩ := found
  obtain ⟨node, inUse, same⟩ := inUse_of_anyMentions held mentioned
  have member : entry ∈ pool.entries := by simp [entries]
  rw [(agrees entry member).2 node inUse same] at inUse
  exact inUse

end Agrees

end Pool

namespace Store

/-- Identities tell the nodes that are in use apart, and the pool agrees with them. -/
structure Sound (store : Store) (held : List Formula) : Prop where
  /-- Every node has an identity that has been given. -/
  stored : ∀ node, InUse held node → ∃ id, node.id? = some id ∧ id < store.next
  /-- No identity is given to two nodes. -/
  single : ∀ first second, InUse held first → InUse held second → SameNode first second →
    first = second
  /-- The pool agrees with the nodes. -/
  pooled : store.pool.Agrees store.next held

namespace Sound

variable {store : Store} {held kept : List Formula}

theorem of_inUse (sound : store.Sound held) (parts : ∀ node, InUse kept node → InUse held node) :
    store.Sound kept where
  stored node inUse := sound.stored node (parts node inUse)
  single first second one other := sound.single first second (parts first one) (parts second other)
  pooled := sound.pooled.of_inUse parts

theorem with_log (sound : store.Sound held) (events : List Event) :
    { store with log := events }.Sound held :=
  ⟨sound.stored, sound.single, sound.pooled⟩

theorem with_pool (sound : store.Sound held) {pool : Pool} (pooled : pool.Agrees store.next held) :
    { store with pool := pool }.Sound held :=
  ⟨sound.stored, sound.single, pooled⟩

/-- No node in use has the next identity. -/
theorem id?_ne_next (sound : store.Sound held) {node : Formula} (inUse : InUse held node) :
    node.id? ≠ some store.next := by
  obtain ⟨id, own, given⟩ := sound.stored node inUse
  rw [own, ne_eq, Option.some.injEq]
  exact Nat.ne_of_lt given

/-- A node on parts that are in use is told apart from them by the next identity. -/
theorem add
    (sound : store.Sound held)
    {x : Formula}
    (own : x.id? = some store.next)
    (parts : ∀ node, Occurs node x → node = x ∨ InUse held node) :
    store.fresh.2.Sound (x :: held) := by
  have cases_inUse : ∀ node, InUse (x :: held) node → node = x ∨ InUse held node := by
    intro node inUse
    exact (inUse_cons_iff.mp inUse).elim (parts node) .inr
  refine ⟨?_, ?_, ?_⟩
  · intro node inUse
    obtain rfl | before := cases_inUse node inUse
    · exact ⟨store.next, own, Nat.lt_succ_self _⟩
    · obtain ⟨id, same, given⟩ := sound.stored node before
      exact ⟨id, same, Nat.lt_succ_of_lt given⟩
  · rintro first second one other ⟨id, firstId, secondId⟩
    obtain rfl | firstBefore := cases_inUse first one
    · obtain rfl | secondBefore := cases_inUse second other
      · rfl
      · exact absurd (secondId.trans (firstId.symm.trans own)) (sound.id?_ne_next secondBefore)
    · obtain rfl | secondBefore := cases_inUse second other
      · exact absurd (firstId.trans (secondId.symm.trans own)) (sound.id?_ne_next firstBefore)
      · exact sound.single first second firstBefore secondBefore ⟨id, firstId, secondId⟩
  · intro entry member
    obtain ⟨given, literal⟩ := sound.pooled entry member
    refine ⟨Nat.lt_succ_of_lt given, fun node inUse same => ?_⟩
    obtain rfl | before := cases_inUse node inUse
    · rw [own, Option.some.injEq] at same
      exact absurd same (Nat.ne_of_gt given)
    · exact literal node before same

end Sound

/-! ## How a store grows -/

/-- What is in use later was in use before, or has been made since then. -/
structure Extends
    (store : Store)
    (held : List Formula)
    (later : Store)
    (kept : List Formula) : Prop where
  /-- Identities tell the nodes that are in use later apart. -/
  sound : later.Sound kept
  /-- Identities are not taken back. -/
  next_le : store.next ≤ later.next
  /-- A node that was not in use has an identity that was not given before. -/
  inUse : ∀ node, InUse kept node →
    InUse held node ∨ ∃ id, node.id? = some id ∧ store.next ≤ id

namespace Extends

variable {store middle later : Store} {held others kept : List Formula} {x : Formula}

theorem refl (sound : store.Sound held) : store.Extends held store held :=
  ⟨sound, le_rfl, fun _ inUse => .inl inUse⟩

theorem trans
    (first : store.Extends held middle others)
    (second : middle.Extends others later kept) :
    store.Extends held later kept where
  sound := second.sound
  next_le := first.next_le.trans second.next_le
  inUse node present := by
    obtain before | ⟨id, own, since⟩ := second.inUse node present
    · exact first.inUse node before
    · exact .inr ⟨id, own, first.next_le.trans since⟩

theorem of_inUse
    (extension : store.Extends held later others)
    (parts : ∀ node, InUse kept node → InUse others node) :
    store.Extends held later kept :=
  ⟨extension.sound.of_inUse parts, extension.next_le,
    fun node present => extension.inUse node (parts node present)⟩

theorem of_subset
    (extension : store.Extends held later others)
    (subset : ∀ x ∈ kept, x ∈ others) :
    store.Extends held later kept :=
  extension.of_inUse fun _ inUse => inUse.of_subset subset

/-- A node that is in use may be held itself. -/
theorem hold (extension : store.Extends held later kept) (present : InUse kept x) :
    store.Extends held later (x :: kept) := by
  refine extension.of_inUse fun node part => ?_
  obtain occurs | same := inUse_cons_iff.mp part
  · exact present.part occurs
  · exact same

/-- A node is made on parts that are in use, which may be let go then, as it holds them itself. -/
theorem enclose
    (extension : store.Extends held later others)
    (own : x.id? = some later.next)
    (parts : ∀ node, Occurs node x → node = x ∨ InUse others node)
    (subset : ∀ y ∈ kept, y ∈ others) :
    store.Extends held later.fresh.2 (x :: kept) := by
  have added : store.Extends held later.fresh.2 (x :: others) := by
    refine ⟨extension.sound.add own parts, extension.next_le.trans (Nat.le_succ _), ?_⟩
    intro node present
    obtain occurs | before := inUse_cons_iff.mp present
    · obtain rfl | before := parts node occurs
      · exact .inr ⟨later.next, own, extension.next_le⟩
      · exact extension.inUse node before
    · exact extension.inUse node before
  refine added.of_subset ?_
  rw [List.forall_mem_cons]
  exact ⟨by simp, fun y member => by simp [subset y member]⟩

/-- A pool that agreed before agrees with what is in use later. -/
theorem agrees
    (extension : store.Extends held later kept)
    {pool : Pool}
    (before : pool.Agrees store.next held) :
    pool.Agrees later.next kept := by
  intro entry member
  obtain ⟨given, literal⟩ := before entry member
  refine ⟨given.trans_le extension.next_le, fun node present same => ?_⟩
  obtain inUse | ⟨id, own, since⟩ := extension.inUse node present
  · exact literal node inUse same
  · rw [own, Option.some.injEq] at same
    exact absurd since (Nat.not_le_of_lt (same ▸ given))

/-- The literal of a value is one that is in use, or new; either way the pool agrees with it. -/
theorem internIn
    {pool : Pool}
    (sound : store.Sound held)
    (agrees : pool.Agrees store.next held)
    (value : Rat) :
    store.Extends held (store.internIn pool held value).2.2
        ((store.internIn pool held value).1 :: held) ∧
      (store.internIn pool held value).2.1.Agrees (store.internIn pool held value).2.2.next
        ((store.internIn pool held value).1 :: held) := by
  cases found : pool.lookup? (Store.inUse held) value with
  | some id =>
      simp only [Store.internIn, found]
      have extension := (refl sound).hold (agrees.inUse_of_lookup?_eq_some found)
      exact ⟨⟨extension.sound.with_log _, extension.next_le, extension.inUse⟩,
        extension.agrees agrees⟩
  | none =>
      simp only [Store.internIn, found]
      have extension : store.Extends held store.fresh.2
          (.literal (some store.next) value :: held) :=
        (refl sound).enclose rfl (fun node occurs => .inl (by cases occurs; rfl)) (by simp)
      refine ⟨⟨extension.sound.with_log _, extension.next_le, extension.inUse⟩, ?_⟩
      refine (extension.agrees agrees).register (Nat.lt_succ_self _) fun node inUse same => ?_
      exact extension.sound.single _ _ inUse (.of_mem (List.mem_cons_self ..)) ⟨_, same, rfl⟩

/-- Interning gives the literal that is in use, or a new one. -/
theorem intern (sound : store.Sound held) (value : Rat) :
    store.Extends held (store.intern held value).2 ((store.intern held value).1 :: held) := by
  obtain ⟨extension, agrees⟩ := Extends.internIn sound sound.pooled value
  exact ⟨extension.sound.with_pool agrees, extension.next_le, extension.inUse⟩

end Extends

/-- Every node of a draft that has an identity is in use already. -/
def Known (held : List Formula) (draft : Formula) : Prop :=
  Everywhere (fun node => node.id? = none ∨ InUse held node) draft

variable {held : List Formula} {draft : Formula} {id : NodeId}

/-- A known draft that has an identity is in use. -/
theorem Known.inUse (known : Known held draft) (own : draft.id? = some id) : InUse held draft :=
  known.here.resolve_left (by simp [own])

/-- A draft that is known where some formulas are held is known where more are. -/
theorem Known.mono
    {more : List Formula}
    (known : Known held draft)
    (subset : ∀ x ∈ held, x ∈ more) :
    Known more draft :=
  fun node occurs => (known node occurs).imp_right fun inUse => inUse.of_subset subset

/-! ## Entering drafts -/

/-- Something that is kept by whatever entering a draft does, one node after the other. -/
structure EnteringKeeps (motive : Store → List Formula → Prop) : Prop where
  /-- It is kept when the literal of a value is given. -/
  intern : ∀ {store held}, motive store held → ∀ value,
    motive (store.intern held value).2 ((store.intern held value).1 :: held)
  /-- It is kept when a node is made on parts that are in use. -/
  build : ∀ {store held x}, motive store held → x.id? = some store.next →
    (∀ node, Occurs node x → node = x ∨ InUse held node) → motive store.fresh.2 (x :: held)
  /-- It is kept when formulas are let go, or parts of them are held as well. -/
  hold : ∀ {store held kept}, motive store held → (∀ x ∈ kept, InUse held x) → motive store kept

namespace EnteringKeeps

variable {motive : Store → List Formula → Prop}

/-- A node is made on parts that are let go then, as it holds them itself. -/
theorem enclose
    (keeps : EnteringKeeps motive)
    {store : Store}
    {others kept : List Formula}
    {x : Formula}
    (holds : motive store others)
    (own : x.id? = some store.next)
    (parts : ∀ node, Occurs node x → node = x ∨ InUse others node)
    (subset : ∀ y ∈ kept, y ∈ others) :
    motive store.fresh.2 (x :: kept) := by
  refine keeps.hold (keeps.build holds own parts) fun y member => .of_mem ?_
  obtain rfl | before := List.mem_cons.mp member
  · exact List.mem_cons_self
  · exact List.mem_cons_of_mem x (subset y before)

/-- A node that is in use may be held itself. -/
theorem holdPart
    (keeps : EnteringKeeps motive)
    {store : Store}
    {x : Formula}
    (holds : motive store held)
    (present : InUse held x) :
    motive store (x :: held) :=
  keeps.hold holds (List.forall_mem_cons.mpr ⟨present, fun _ => .of_mem⟩)

mutual

/-- What interning and making nodes keep is kept when a draft is entered. -/
theorem enter (keeps : EnteringKeeps motive) :
    ∀ (draft : Formula) {store : Store} {held : List Formula},
      motive store held → Known held draft →
        motive (store.enter held draft).2 ((store.enter held draft).1 :: held)
  | .literal none value, store, held, holds, _ => keeps.intern holds value
  | .constant none name value, store, held, holds, _ =>
      keeps.build holds rfl fun node occurs => .inl (by cases occurs; rfl)
  | .output none name inner, store, held, holds, known => by
      have inside := keeps.enter inner holds (everywhere_output.mp known).2
      unfold Store.enter
      refine keeps.enclose inside rfl (fun node occurs => ?_) (by simp +contextual)
      cases occurs with
      | root => exact .inl rfl
      | inner occurs => exact .inr (inUse_cons_iff.mpr (.inl occurs))
  | .derived none op operands value, store, held, holds, known => by
      have inside := keeps.enterAll operands holds (everywhere_derived.mp known).2
      unfold Store.enter
      refine keeps.enclose inside rfl (fun node occurs => ?_) (by simp +contextual)
      cases occurs with
      | root => exact .inl rfl
      | operand member occurs => exact .inr ⟨_, List.mem_append_left held member, occurs⟩
  | .literal (some id) value, store, held, holds, known => keeps.holdPart holds (known.inUse rfl)
  | .constant (some id) name value, store, held, holds, known =>
      keeps.holdPart holds (known.inUse rfl)
  | .output (some id) name inner, store, held, holds, known =>
      keeps.holdPart holds (known.inUse rfl)
  | .derived (some id) op operands value, store, held, holds, known =>
      keeps.holdPart holds (known.inUse rfl)

theorem enterAll (keeps : EnteringKeeps motive) :
    ∀ (drafts : List Formula) {store : Store} {held : List Formula},
      motive store held → (∀ draft ∈ drafts, Known held draft) →
        motive (store.enterAll held drafts).2 ((store.enterAll held drafts).1 ++ held)
  | [], store, held, holds, _ => holds
  | draft :: rest, store, held, holds, known => by
      rw [List.forall_mem_cons] at known
      have first := keeps.enter draft holds known.1
      have later := keeps.enterAll rest first fun x member =>
        (known.2 x member).mono fun y held => List.mem_cons_of_mem _ held
      refine keeps.hold later fun x member => .of_mem ?_
      simp only [Store.enterAll, List.cons_append, List.mem_cons, List.mem_append] at member ⊢
      tauto

end

end EnteringKeeps

/-- A store grows while drafts are entered. -/
theorem enteringKeeps_extends (store : Store) (held : List Formula) :
    EnteringKeeps (store.Extends held) where
  intern extension value := extension.trans (.intern extension.sound value)
  build extension own parts := extension.enclose own parts fun _ => id
  hold extension parts := extension.of_inUse fun _ ⟨x, member, occurs⟩ =>
    (parts x member).part occurs

/-- Entering a draft on parts that are in use leaves every identity with one node. -/
theorem extends_enter {store : Store} (sound : store.Sound held) (known : Known held draft) :
    store.Extends held (store.enter held draft).2 ((store.enter held draft).1 :: held) :=
  (enteringKeeps_extends store held).enter draft (.refl sound) known

end Store

/-- What holds of every draft is inherited, as everything that is built is a draft at first. -/
theorem inherited_everywhere
    {property : Formula → Prop}
    (drafts : ∀ node, node.id? = none → property node) :
    Inherited fun x => WellFormed x ∧ Everywhere property x where
  literal value := ⟨wellFormed_literal none value, everywhere_literal.mpr (drafts _ rfl)⟩
  constant name value :=
    ⟨wellFormed_constant none name value, everywhere_constant.mpr (drafts _ rfl)⟩
  output name x holds :=
    ⟨wellFormed_output_iff.mpr holds.1, everywhere_output.mpr ⟨drafts _ rfl, holds.2⟩⟩
  inner holds := ⟨wellFormed_output_iff.mp holds.1, (everywhere_output.mp holds.2).2⟩
  operand holds := by
    obtain ⟨⟨accepted, _⟩, wellFormed⟩ := wellFormed_derived_iff.mp holds.1
    have inside := (everywhere_derived.mp holds.2).2
    exact ⟨accepted, fun x member => ⟨wellFormed x member, inside x member⟩⟩
  build accepted inside :=
    ⟨wellFormed_ofValue accepted fun x member => (inside x member).1,
      everywhere_ofValue (drafts _ rfl) fun x member => (inside x member).2⟩

/-- What is built on formulas of a session has new nodes and nodes that are in use. -/
theorem Drafted.known
    {held : List Formula}
    {draft : Formula}
    (drafted : Drafted held draft)
    (wellFormed : ∀ x ∈ held, WellFormed x) :
    Store.Known held draft := by
  have drafts : ∀ node : Formula, node.id? = none → node.id? = none ∨ InUse held node :=
    fun node own => .inl own
  refine ((inherited_everywhere drafts).of_drafted drafted fun x member =>
    ⟨wellFormed x member, ?_⟩).2
  exact fun node occurs => .inr ⟨x, member, occurs⟩

/-- What a transition leaves in use was in use before, or has been made by it. -/
theorem Transition.extension
    {store later : Store}
    {held kept : List Formula}
    (transition : Transition store held later kept)
    (wellFormed : ∀ x ∈ held, WellFormed x)
    (sound : store.Sound held) :
    store.Extends held later kept := by
  have same := Store.Extends.refl sound
  cases transition with
  | enter drafted => exact Store.extends_enter sound (drafted.known wellFormed)
  | unpooled value =>
      exact same.enclose rfl (fun node occurs => .inl (by cases occurs; rfl)) (by simp)
  | keep parts =>
      refine same.of_inUse ?_
      rintro node ⟨x, member, occurs⟩
      exact (parts x member).part occurs
  | sweep =>
      exact ⟨(sound.with_pool (sound.pooled.sweep _)).with_log _, same.next_le, same.inUse⟩
  | log events => exact ⟨sound.with_log events, same.next_le, same.inUse⟩

/-- However long a session goes on, its store only grows. -/
theorem Evolves.extension
    {store later : Store}
    {held kept : List Formula}
    (evolves : Evolves store held later kept)
    (wellFormed : ∀ x ∈ held, WellFormed x)
    (sound : store.Sound held) :
    store.Extends held later kept := by
  induction evolves with
  | rest => exact .refl sound
  | next earlier transition inductionHypothesis =>
      exact inductionHypothesis.trans
        (transition.extension (earlier.wellFormed wellFormed) inductionHypothesis.sound)

/-- In every session, identities tell the nodes that are in use apart. -/
theorem Session.sound
    {store : Store}
    {held : List Formula}
    (session : Session store held) :
    store.Sound held :=
  (Evolves.extension session (by simp) ⟨by simp [InUse], by simp [InUse], .empty⟩).sound

end ExactFormula
