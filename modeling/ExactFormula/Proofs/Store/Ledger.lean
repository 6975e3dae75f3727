import ExactFormula.Proofs.Store.Identity
import Mathlib.Data.Set.Card

/-!
# The literals of a pool

A pool does not keep the literals alive that it has given, and it is not told when one
is copied, built upon or let go.  A ledger writes down what the pool cannot know: the
formulas that are held, and every literal that has ever been given.  However these things
follow one another, the entries of literals in use are exactly those literals.
-/

namespace ExactFormula

open Formula

/-- The literal that an entry stands for. -/
def PoolEntry.literal (entry : PoolEntry) : Formula :=
  .literal (some entry.id) entry.value

theorem PoolEntry.literal_injective
    {first second : PoolEntry}
    (same : first.literal = second.literal) :
    first = second := by
  cases first
  cases second
  simpa [PoolEntry.literal, and_comm] using same

/-! ## Entries -/

namespace Pool

/-- Whether no two entries have one value. -/
def Distinct (entries : List PoolEntry) : Prop :=
  (entries.map PoolEntry.value).Nodup

variable {entries : List PoolEntry} {added entry : PoolEntry}

/-- Entries of one value are one entry. -/
theorem Distinct.eq_of_value_eq
    {first second : PoolEntry}
    (distinct : Distinct entries)
    (firstMember : first ∈ entries)
    (secondMember : second ∈ entries)
    (same : first.value = second.value) :
    first = second :=
  List.inj_on_of_nodup_map distinct firstMember secondMember same

theorem map_value_put :
    (put added entries).map PoolEntry.value =
      if added.value ∈ entries.map PoolEntry.value then entries.map PoolEntry.value
      else entries.map PoolEntry.value ++ [added.value] := by
  induction entries with
  | nil => rfl
  | cons first rest inductionHypothesis =>
      by_cases same : first.value = added.value
      · simp [put, same]
      · simp only [put, same, if_false, List.map_cons, inductionHypothesis, List.mem_cons,
          Ne.symm same, false_or]
        split <;> rfl

/-- An entry replaces that of its value, so no value has two. -/
theorem Distinct.put (distinct : Distinct entries) : Distinct (Pool.put added entries) := by
  rw [Distinct, map_value_put]
  split
  · exact distinct
  · next new => simpa using List.Nodup.concat new distinct

/-- An entry takes the place of the one of the same value. -/
theorem Distinct.mem_put_iff (distinct : Distinct entries) :
    entry ∈ Pool.put added entries ↔
      entry = added ∨ entry ∈ entries ∧ entry.value ≠ added.value := by
  induction entries with
  | nil => simp [Pool.put]
  | cons first rest inductionHypothesis =>
      obtain ⟨new, distinctRest⟩ := List.nodup_cons.mp distinct
      have others : entry ∈ rest → entry.value ≠ first.value := by
        intro member same
        exact new (same ▸ List.mem_map_of_mem member)
      by_cases same : first.value = added.value
      · rw [Pool.put, if_pos same, List.mem_cons, List.mem_cons, ← same]
        grind
      · rw [Pool.put, if_neg same, List.mem_cons, List.mem_cons, inductionHypothesis distinctRest]
        grind

variable {pool : Pool} {inUse : NodeId → Bool} {value : Rat} {id : NodeId}

/-- A search by value finds the one entry of the value. -/
theorem entry?_eq_some_iff (distinct : Distinct pool.entries) :
    pool.entry? value = some entry ↔ entry ∈ pool.entries ∧ entry.value = value := by
  constructor
  · intro found
    exact ⟨List.mem_of_find?_eq_some found, by simpa using List.find?_some found⟩
  · rintro ⟨member, rfl⟩
    cases found : pool.entry? entry.value with
    | none => simpa using List.find?_eq_none.mp found entry member
    | some other =>
        have same : other.value = entry.value := by simpa using List.find?_some found
        rw [distinct.eq_of_value_eq (List.mem_of_find?_eq_some found) member same]

/-- The pool has the literal of a value when the entry of the value is of one in use. -/
theorem lookup?_eq_some_iff (distinct : Distinct pool.entries) :
    pool.lookup? inUse value = some id ↔ ⟨value, id⟩ ∈ pool.entries ∧ inUse id = true := by
  simp only [lookup?, Option.filter_eq_some_iff, Option.map_eq_some_iff,
    entry?_eq_some_iff distinct]
  constructor
  · rintro ⟨⟨⟨_, _⟩, ⟨member, rfl⟩, rfl⟩, used⟩
    exact ⟨member, used⟩
  · rintro ⟨member, used⟩
    exact ⟨⟨_, ⟨member, rfl⟩, rfl⟩, used⟩

end Pool

/-! ## Nodes in use -/

theorem Formula.anyMentions_of_mem
    {id : NodeId}
    {x : Formula}
    {held : List Formula}
    (member : x ∈ held)
    (mentioned : mentions id x = true) :
    anyMentions id held = true := by
  induction held with
  | nil => exact absurd member List.not_mem_nil
  | cons first rest inductionHypothesis =>
      rw [anyMentions, Bool.or_eq_true]
      obtain rfl | later := List.mem_cons.mp member
      · exact .inl mentioned
      · exact .inr (inductionHypothesis later)

theorem Formula.mentions_of_occurs
    {id : NodeId}
    {node x : Formula}
    (occurs : Occurs node x)
    (own : node.id? = some id) :
    mentions id x = true := by
  induction occurs with
  | root => cases node <;> simp_all [mentions, id?]
  | inner _ inductionHypothesis => simp [mentions, inductionHypothesis]
  | operand member _ inductionHypothesis =>
      simp [mentions, anyMentions_of_mem member inductionHypothesis]

theorem Formula.eq_of_occurs_literal
    {id : Option NodeId}
    {value : Rat}
    {node : Formula}
    (occurs : Occurs node (literal id value)) :
    node = literal id value := by
  cases occurs
  rfl

/-- An identity is in use when a node in use has it. -/
theorem Store.inUse_iff {held : List Formula} {id : NodeId} :
    Store.inUse held id = true ↔ ∃ node, InUse held node ∧ node.id? = some id := by
  constructor
  · exact inUse_of_anyMentions held
  · rintro ⟨node, ⟨x, member, occurs⟩, own⟩
    exact anyMentions_of_mem member (mentions_of_occurs occurs own)

/-- The identity of an entry is in use when its literal is. -/
theorem Pool.Agrees.inUse_iff
    {pool : Pool}
    {next : NodeId}
    {held : List Formula}
    {entry : PoolEntry}
    (agrees : pool.Agrees next held)
    (member : entry ∈ pool.entries) :
    Store.inUse held entry.id = true ↔ InUse held entry.literal := by
  rw [Store.inUse_iff]
  constructor
  · rintro ⟨node, inUse, own⟩
    have same : node = entry.literal := (agrees entry member).2 node inUse own
    exact same ▸ inUse
  · exact fun inUse => ⟨entry.literal, inUse, rfl⟩

/-! ## Ledgers -/

/-- A store, the formulas that are held, and the literals that the pool of the store has given. -/
structure Ledger where
  /-- The store with the pool. -/
  store : Store
  /-- The formulas that are held, copies included. -/
  held : List Formula
  /-- Every literal that the pool has given, whether or not it is still in use. -/
  given : List Formula

namespace Ledger

/-- The ledger after the literal of a value has been given, which is held from then on. -/
def interning (ledger : Ledger) (value : Rat) : Ledger where
  store := (ledger.store.intern ledger.held value).2
  held := (ledger.store.intern ledger.held value).1 :: ledger.held
  given := (ledger.store.intern ledger.held value).1 :: ledger.given

/-- What can happen to the literals of a pool. -/
inductive Step : Ledger → Ledger → Prop
  /-- The pool gives the literal of a value. -/
  | intern
      (ledger : Ledger)
      (value : Rat) :
      Step ledger (ledger.interning value)
  /-- Formulas are copied or let go, or parts of them are held as well. -/
  | hold
      {ledger : Ledger}
      {kept : List Formula} :
      (∀ x ∈ kept, InUse ledger.held x) → Step ledger { ledger with held := kept }
  /-- A node is made on parts that are in use, without the pool. -/
  | build
      {ledger : Ledger}
      {x : Formula} :
      x.id? = some ledger.store.next →
      (∀ node, Occurs node x → node = x ∨ InUse ledger.held node) →
      Step ledger { ledger with store := ledger.store.fresh.2, held := x :: ledger.held }
  /-- The pool is swept. -/
  | sweep
      (ledger : Ledger) :
      Step ledger { ledger with store := (ledger.store.sweep ledger.held).2 }
  /-- The log is written, or emptied. -/
  | log
      (ledger : Ledger)
      (events : List Event) :
      Step ledger { ledger with store := { ledger.store with log := events } }

theorem Step.unpooled (ledger : Ledger) (value : Rat) :
    Step ledger
      { ledger with
        store := ledger.store.fresh.2
        held := .literal (some ledger.store.next) value :: ledger.held } :=
  .build rfl fun _ occurs => .inl (eq_of_occurs_literal occurs)

/-- What can happen one after the other from the beginning on. -/
inductive Reached : Ledger → Prop
  /-- A new pool has given nothing yet, whatever is held in its session. -/
  | start
      {store : Store}
      {held : List Formula} :
      Session store held → Reached { store := { store with pool := {} }, held, given := [] }
  /-- One more thing happens. -/
  | next
      {ledger later : Ledger} :
      Reached ledger → Step ledger later → Reached later

/-- A literal that the pool has given and that is in use. -/
def Live (ledger : Ledger) (x : Formula) : Prop :=
  x ∈ ledger.given ∧ InUse ledger.held x

/-! ## What every step keeps -/

/-- Identities are sound, and the entries are literals that were given, with all that are live. -/
structure Sound (ledger : Ledger) : Prop where
  /-- Identities tell the nodes that are in use apart. -/
  identities : ledger.store.Sound ledger.held
  /-- No two entries have one value. -/
  distinct : Pool.Distinct ledger.store.pool.entries
  /-- The literal of an entry has been given. -/
  entered : ∀ entry ∈ ledger.store.pool.entries, entry.literal ∈ ledger.given
  /-- What has been given is a literal, with an identity that has been given. -/
  numbered : ∀ x ∈ ledger.given, ∃ entry : PoolEntry,
    x = entry.literal ∧ entry.id < ledger.store.next
  /-- No identity was given to two literals. -/
  single : ∀ first ∈ ledger.given, ∀ second ∈ ledger.given, SameNode first second → first = second
  /-- A literal that is live has its entry. -/
  pointed : ∀ entry : PoolEntry, ledger.Live entry.literal → entry ∈ ledger.store.pool.entries

namespace Sound

variable {ledger later : Ledger} {value : Rat}

/-- A ledger is sound when its pool is new. -/
theorem start {store : Store} {held : List Formula} (session : Session store held) :
    Sound { store := { store with pool := {} }, held, given := [] } where
  identities := session.sound.with_pool .empty
  distinct := List.nodup_nil
  entered := by simp
  numbered := by simp
  single := by simp
  pointed _ live := absurd live.1 List.not_mem_nil

/-- What the pool has no part in takes nothing from the ledger. -/
theorem of_extends
    (sound : ledger.Sound)
    {store : Store}
    {kept : List Formula}
    (extension : ledger.store.Extends ledger.held store kept)
    (pool : store.pool = ledger.store.pool) :
    Sound { ledger with store, held := kept } where
  identities := extension.sound
  distinct := pool ▸ sound.distinct
  entered := pool ▸ sound.entered
  numbered x member := by
    obtain ⟨entry, same, given⟩ := sound.numbered x member
    exact ⟨entry, same, given.trans_le extension.next_le⟩
  single := sound.single
  pointed entry live := by
    rw [pool]
    obtain ⟨given, inUse⟩ := live
    refine sound.pointed entry ⟨given, ?_⟩
    -- A literal that was given has an old identity, so it is not a new node.
    obtain before | ⟨id, own, since⟩ := extension.inUse _ inUse
    · exact before
    · obtain ⟨other, same, old⟩ := sound.numbered _ given
      rw [same, PoolEntry.literal, id?, Option.some.injEq] at own
      exact absurd since (Nat.not_le_of_lt (own ▸ old))

theorem log (sound : ledger.Sound) (events : List Event) :
    Sound { ledger with store := { ledger.store with log := events } } :=
  sound.of_extends ⟨sound.identities.with_log events, le_rfl, fun _ => .inl⟩ rfl

/-- A sweep keeps the ledger sound, as the entry of a live literal stays. -/
theorem sweep (sound : ledger.Sound) :
    Sound { ledger with store := (ledger.store.sweep ledger.held).2 } where
  identities := (sound.identities.with_pool (sound.identities.pooled.sweep _)).with_log _
  distinct := sound.distinct.sublist (List.filter_sublist.map _)
  entered entry member := sound.entered entry (List.mem_filter.mp member).1
  numbered := sound.numbered
  single := sound.single
  pointed entry live := by
    have member := sound.pointed entry live
    exact List.mem_filter.mpr
      ⟨member, (sound.identities.pooled.inUse_iff member).mpr live.2⟩

/-- The pool has the literal of a value exactly when a literal of the value is live. -/
theorem lookup?_eq_some_iff (sound : ledger.Sound) {id : NodeId} :
    ledger.store.pool.lookup? (Store.inUse ledger.held) value = some id ↔
      ledger.Live (.literal (some id) value) := by
  rw [Pool.lookup?_eq_some_iff sound.distinct]
  constructor
  · rintro ⟨member, used⟩
    exact ⟨sound.entered _ member, (sound.identities.pooled.inUse_iff member).mp used⟩
  · intro live
    have member : ⟨value, id⟩ ∈ ledger.store.pool.entries := sound.pointed ⟨value, id⟩ live
    exact ⟨member, (sound.identities.pooled.inUse_iff member).mpr live.2⟩

/-- Every live literal is the literal of an entry. -/
theorem exists_entry_of_live (sound : ledger.Sound) {x : Formula} (live : ledger.Live x) :
    ∃ entry ∈ ledger.store.pool.entries, x = entry.literal := by
  obtain ⟨entry, rfl, _⟩ := sound.numbered x live.1
  exact ⟨entry, sound.pointed entry live, rfl⟩

/-- A live literal is given again. -/
theorem intern_of_live
    (sound : ledger.Sound)
    {id : NodeId}
    (live : ledger.Live (.literal (some id) value)) :
    ledger.store.intern ledger.held value =
      (.literal (some id) value, ledger.store.record (.literal true value)) := by
  have found := sound.lookup?_eq_some_iff.mpr live
  simp only [Store.intern, Store.internIn, found]
  rfl

/-- Where no literal of a value is live, a new one is made. -/
theorem intern_of_not_live
    (sound : ledger.Sound)
    (dead : ∀ x, ledger.Live x → x.value ≠ value) :
    ledger.store.intern ledger.held value =
      (.literal (some ledger.store.next) value,
        { ledger.store.fresh.2.record (.literal false value) with
          pool := ledger.store.pool.register value ledger.store.next }) := by
  have missing : ledger.store.pool.lookup? (Store.inUse ledger.held) value = none := by
    rw [Option.eq_none_iff_forall_ne_some]
    exact fun id found => dead _ (sound.lookup?_eq_some_iff.mp found) rfl
  simp only [Store.intern, Store.internIn, missing]
  rfl

/-- What has been given before may be given again. -/
theorem giveAgain (sound : ledger.Sound) {x : Formula} (member : x ∈ ledger.given) :
    Sound { ledger with given := x :: ledger.given } := by
  have before : ∀ y, y ∈ x :: ledger.given → y ∈ ledger.given := by simp [member]
  exact
    { identities := sound.identities
      distinct := sound.distinct
      entered := fun entry inPool => List.mem_cons_of_mem x (sound.entered entry inPool)
      numbered := fun y given => sound.numbered y (before y given)
      single := fun first one second other =>
        sound.single first (before first one) second (before second other)
      pointed := fun entry live => sound.pointed entry ⟨before _ live.1, live.2⟩ }

/-- No literal that has been given has the next identity. -/
theorem id?_ne_next_of_given (sound : ledger.Sound) {x : Formula} (given : x ∈ ledger.given) :
    x.id? ≠ some ledger.store.next := by
  obtain ⟨entry, rfl, before⟩ := sound.numbered x given
  exact fun own => Nat.ne_of_lt before (Option.some.inj own)

/-- A new literal takes the place of one that is no longer in use. -/
theorem giveNew
    (sound : ledger.Sound)
    (dead : ∀ x, ledger.Live x → x.value ≠ value) :
    (ledger.interning value).Sound := by
  have extension := Store.Extends.intern sound.identities value
  unfold interning
  rw [sound.intern_of_not_live dead] at extension ⊢
  refine ⟨extension.sound, sound.distinct.put, ?_, ?_, ?_, ?_⟩
  · intro entry member
    obtain rfl | ⟨before, _⟩ := sound.distinct.mem_put_iff.mp member
    · exact List.mem_cons_self
    · exact List.mem_cons_of_mem _ (sound.entered entry before)
  · rw [List.forall_mem_cons]
    refine ⟨⟨⟨value, ledger.store.next⟩, rfl, Nat.lt_succ_self _⟩, fun x given => ?_⟩
    obtain ⟨entry, same, before⟩ := sound.numbered x given
    exact ⟨entry, same, Nat.lt_succ_of_lt before⟩
  · -- The new literal has the next identity, which none of the others has.
    rintro first one second other ⟨id, firstId, secondId⟩
    obtain rfl | firstGiven := List.mem_cons.mp one
    · obtain rfl | secondGiven := List.mem_cons.mp other
      · rfl
      · exact absurd (secondId.trans firstId.symm) (sound.id?_ne_next_of_given secondGiven)
    · obtain rfl | secondGiven := List.mem_cons.mp other
      · exact absurd (firstId.trans secondId.symm) (sound.id?_ne_next_of_given firstGiven)
      · exact sound.single first firstGiven second secondGiven ⟨id, firstId, secondId⟩
  · -- A live literal is the new one, or an old one of another value, whose entry stays.
    rintro entry ⟨given, inUse⟩
    refine sound.distinct.mem_put_iff.mpr ?_
    obtain made | given := List.mem_cons.mp given
    · exact .inl (PoolEntry.literal_injective made)
    · obtain occurs | before := inUse_cons_iff.mp inUse
      · exact .inl (PoolEntry.literal_injective (eq_of_occurs_literal occurs))
      · exact .inr ⟨sound.pointed entry ⟨given, before⟩, dead _ ⟨given, before⟩⟩

/-- Giving the literal of a value keeps the ledger sound. -/
theorem intern (sound : ledger.Sound) (value : Rat) :
    (ledger.interning value).Sound := by
  by_cases present : ∃ x, ledger.Live x ∧ x.value = value
  · have extension := Store.Extends.intern sound.identities value
    obtain ⟨x, live, rfl⟩ := present
    obtain ⟨entry, _, rfl⟩ := sound.exists_entry_of_live live
    unfold interning
    rw [PoolEntry.literal, Formula.value, sound.intern_of_live live] at extension ⊢
    exact (sound.of_extends extension rfl).giveAgain live.1
  · exact sound.giveNew fun x live same => present ⟨x, live, same⟩

/-- Every step keeps a ledger sound. -/
theorem step (sound : ledger.Sound) (step : Step ledger later) : later.Sound := by
  have same := Store.Extends.refl sound.identities
  cases step with
  | intern value => exact sound.intern value
  | hold parts =>
      refine sound.of_extends (same.of_inUse ?_) rfl
      rintro node ⟨x, member, occurs⟩
      exact (parts x member).part occurs
  | build own parts => exact sound.of_extends (same.enclose own parts fun _ => id) rfl
  | sweep => exact sound.sweep
  | log events => exact sound.log events

end Sound

/-- Every ledger that is reached is sound. -/
theorem Reached.sound {ledger : Ledger} (reached : Reached ledger) : ledger.Sound := by
  induction reached with
  | start session => exact .start session
  | next _ step inductionHypothesis => exact inductionHypothesis.step step

/-! ## What a pool knows about its literals -/

theorem ncard_eq_length
    {α : Type}
    [DecidableEq α]
    {members : List α}
    {property : α → Prop}
    (nodup : members.Nodup)
    (same : ∀ x, x ∈ members ↔ property x) :
    {x | property x}.ncard = members.length := by
  have finite : {x | property x} = (members.toFinset : Set α) := by
    ext x
    rw [Set.mem_ofPred_eq, ← same, Finset.mem_coe, List.mem_toFinset]
  rw [finite, Set.ncard_coe_finset, List.toFinset_card_of_nodup nodup]

/-- The entries of a pool keep track of the literals that are live. -/
structure Tracks (ledger : Ledger) : Prop where
  /-- An entry stands for a literal of its value that was given, and for no other node. -/
  key : ∀ entry ∈ ledger.store.pool.entries, entry.literal ∈ ledger.given ∧
    ∀ node, node ∈ ledger.given ∨ InUse ledger.held node → node.id? = some entry.id →
      node = entry.literal
  /-- No two live literals have one value. -/
  unique : ∀ first second, ledger.Live first → ledger.Live second → first.value = second.value →
    first = second
  /-- A live literal is the one that the entry of its value stands for. -/
  pointed : ∀ x, ledger.Live x → ∃ entry, ledger.store.pool.entry? x.value = some entry ∧
    x = entry.literal
  /-- A live literal is given again. -/
  shared : ∀ x, ledger.Live x → (ledger.store.intern ledger.held x.value).1 = x
  /-- Where no literal of a value is live, a literal of the value is made that is no other node. -/
  fresh : ∀ value, (∀ x, ledger.Live x → x.value ≠ value) →
    ∃ id, (ledger.store.intern ledger.held value).1 = .literal (some id) value ∧
      ∀ node, node ∈ ledger.given ∨ InUse ledger.held node → node.id? ≠ some id
  /-- A sweep leaves the entries of live literals. -/
  remaining : ∀ entry, entry ∈ (ledger.store.sweep ledger.held).2.pool.entries ↔
    entry ∈ ledger.store.pool.entries ∧ ledger.Live entry.literal
  /-- A sweep counts the entries of literals that are not live. -/
  evicted : (ledger.store.sweep ledger.held).1 =
    {entry | entry ∈ ledger.store.pool.entries ∧ ¬ledger.Live entry.literal}.ncard
  /-- After a sweep there are as many entries as values of live literals. -/
  size : (ledger.store.sweep ledger.held).2.pool.size =
    {value | ∃ x, ledger.Live x ∧ x.value = value}.ncard

namespace Sound

variable {ledger : Ledger}

theorem mem_sweep_iff (sound : ledger.Sound) {entry : PoolEntry} :
    entry ∈ (ledger.store.sweep ledger.held).2.pool.entries ↔
      entry ∈ ledger.store.pool.entries ∧ ledger.Live entry.literal := by
  have kept : entry ∈ (ledger.store.sweep ledger.held).2.pool.entries ↔
      entry ∈ ledger.store.pool.entries ∧ Store.inUse ledger.held entry.id = true :=
    List.mem_filter
  rw [kept]
  refine and_congr_right fun member => ?_
  rw [sound.identities.pooled.inUse_iff member]
  exact ⟨fun inUse => ⟨sound.entered entry member, inUse⟩, And.right⟩

theorem entry?_of_live (sound : ledger.Sound) {x : Formula} (live : ledger.Live x) :
    ∃ entry, ledger.store.pool.entry? x.value = some entry ∧ x = entry.literal := by
  obtain ⟨entry, member, rfl⟩ := sound.exists_entry_of_live live
  exact ⟨entry, (Pool.entry?_eq_some_iff sound.distinct).mpr ⟨member, rfl⟩, rfl⟩

/-- A sweep counts what it removes. -/
theorem sweep_eq_ncard (sound : ledger.Sound) :
    (ledger.store.sweep ledger.held).1 =
      {entry | entry ∈ ledger.store.pool.entries ∧ ¬ledger.Live entry.literal}.ncard := by
  let entries := ledger.store.pool.entries
  let inUse (entry : PoolEntry) : Bool := Store.inUse ledger.held entry.id
  have dead : ∀ entry, entry ∈ entries.filter (!inUse ·) ↔
      entry ∈ entries ∧ ¬ledger.Live entry.literal := by
    intro entry
    rw [List.mem_filter]
    refine and_congr_right fun member => ?_
    rw [Bool.not_eq_true', ← Bool.not_eq_true, sound.identities.pooled.inUse_iff member]
    exact not_congr ⟨fun used => ⟨sound.entered entry member, used⟩, And.right⟩
  calc (ledger.store.sweep ledger.held).1
    _ = entries.length - (entries.filter inUse).length := rfl
    _ = (entries.filter (!inUse ·)).length :=
        Nat.sub_eq_of_eq_add' (List.length_eq_length_filter_add inUse)
    _ = _ := (ncard_eq_length (sound.distinct.of_map.filter _) dead).symm

/-- A sweep leaves one entry for each value that has a live literal. -/
theorem size_sweep (sound : ledger.Sound) :
    (ledger.store.sweep ledger.held).2.pool.size =
      {value | ∃ x, ledger.Live x ∧ x.value = value}.ncard := by
  let kept := (ledger.store.sweep ledger.held).2.pool.entries
  have values : ∀ value, value ∈ kept.map PoolEntry.value ↔
      ∃ x, ledger.Live x ∧ x.value = value := by
    intro value
    rw [List.mem_map]
    constructor
    · rintro ⟨entry, member, rfl⟩
      exact ⟨entry.literal, (sound.mem_sweep_iff.mp member).2, rfl⟩
    · rintro ⟨x, live, rfl⟩
      obtain ⟨entry, member, rfl⟩ := sound.exists_entry_of_live live
      exact ⟨entry, sound.mem_sweep_iff.mpr ⟨member, live⟩, rfl⟩
  have distinct : (kept.map PoolEntry.value).Nodup := sound.sweep.distinct
  calc (ledger.store.sweep ledger.held).2.pool.size
    _ = (kept.map PoolEntry.value).length := (List.length_map _).symm
    _ = _ := (ncard_eq_length distinct values).symm

end Sound

/--
Whatever happens to the literals of a pool, its entries keep track of those that are
live: which literal is given for a value, and what a sweep removes, leaves and counts.
-/
theorem tracks_of_reached {ledger : Ledger} (reached : Reached ledger) : ledger.Tracks := by
  have sound := reached.sound
  exact {
    key entry member := by
      have given := sound.entered entry member
      refine ⟨given, fun node known own => ?_⟩
      obtain before | inUse := known
      · exact sound.single node before _ given ⟨entry.id, own, rfl⟩
      · exact (sound.identities.pooled entry member).2 node inUse own
    unique first second one other same := by
      obtain ⟨entry, found, rfl⟩ := sound.entry?_of_live one
      obtain ⟨twin, foundTwin, rfl⟩ := sound.entry?_of_live other
      rw [same, foundTwin, Option.some.injEq] at found
      rw [found]
    pointed _ := sound.entry?_of_live
    shared x live := by
      obtain ⟨entry, _, rfl⟩ := sound.exists_entry_of_live live
      exact congrArg Prod.fst (sound.intern_of_live live)
    fresh value dead := by
      refine ⟨ledger.store.next, congrArg Prod.fst (sound.intern_of_not_live dead), ?_⟩
      rintro node (given | inUse)
      · exact sound.id?_ne_next_of_given given
      · exact sound.identities.id?_ne_next inUse
    remaining _ := sound.mem_sweep_iff
    evicted := sound.sweep_eq_ncard
    size := sound.size_sweep }

/-- A literal that was given twice and let go has an entry, until the pool is swept. -/
theorem tracks_given_twice :
    let first := ({} : Store).intern [] 5
    let second := first.2.intern [first.1] 5
    let ledger : Ledger := { store := second.2, held := [], given := [second.1, first.1] }
    Reached ledger ∧ ledger.Tracks ∧
      second.1.id? = first.1.id? ∧ ledger.store.pool.size = 1 ∧ (ledger.store.sweep []).1 = 1 := by
  intro first second ledger
  have start : Reached { store := {}, held := [], given := [] } := .start .start
  have given : Reached { store := second.2, held := [second.1, first.1], given := ledger.given } :=
    (start.next (.intern _ 5)).next (.intern _ 5)
  have reached : Reached ledger := given.next (.hold (by simp))
  refine ⟨reached, tracks_of_reached reached, ?_, ?_, ?_⟩
  all_goals decide +kernel

/-! ## Ledgers of sessions -/

/-- What entering a draft does to the pool of a store can happen in a ledger. -/
theorem enteringKeeps_reached :
    Store.EnteringKeeps fun store held => ∃ given, Reached { store, held, given } where
  intern := fun ⟨_, reached⟩ value => ⟨_, reached.next (.intern _ value)⟩
  build := fun ⟨_, reached⟩ own parts => ⟨_, reached.next (.build own parts)⟩
  hold := fun ⟨_, reached⟩ parts => ⟨_, reached.next (.hold parts)⟩

/-- The pool of a session gives its literals as in a ledger. -/
theorem exists_reached_of_session
    {store : Store}
    {held : List Formula}
    (session : Session store held) :
    ∃ given, Reached { store, held, given } := by
  induction session with
  | rest => exact ⟨[], .start .start⟩
  | next earlier transition inductionHypothesis =>
      obtain ⟨given, reached⟩ := inductionHypothesis
      cases transition with
      | enter drafted =>
          exact enteringKeeps_reached.enter _ ⟨given, reached⟩
            (drafted.known (earlier.wellFormed (by simp)))
      | unpooled value =>
          exact ⟨given, reached.next (.unpooled _ value)⟩
      | keep parts => exact ⟨given, reached.next (.hold parts)⟩
      | sweep => exact ⟨given, reached.next (.sweep _)⟩
      | log events => exact ⟨given, reached.next (.log _ events)⟩

/-! ## A pool beside that of the session -/

/-- A pool has no part in what entering a draft does to the pool of the store. -/
theorem enteringKeeps_beside
    (store : Store)
    (held : List Formula)
    (pool : Pool)
    (given : List Formula) :
    Store.EnteringKeeps fun later kept => store.Extends held later kept ∧
      Reached { store := { later with pool }, held := kept, given } where
  intern {later kept} := by
    rintro ⟨extension, reached⟩ value
    refine ⟨(Store.enteringKeeps_extends store held).intern extension value, ?_⟩
    cases found : later.pool.lookup? (Store.inUse kept) value with
    | some id =>
        simp only [Store.intern, Store.internIn, found]
        have present := extension.sound.pooled.inUse_of_lookup?_eq_some found
        have parts := List.forall_mem_cons.mpr ⟨present, fun _ => InUse.of_mem⟩
        exact (reached.next (.hold parts)).next (.log _ _)
    | none =>
        simp only [Store.intern, Store.internIn, found]
        exact (reached.next (.unpooled _ value)).next (.log _ _)
  build := by
    rintro later kept x ⟨extension, reached⟩ own parts
    exact ⟨(Store.enteringKeeps_extends store held).build extension own parts,
      reached.next (.build own parts)⟩
  hold := by
    rintro later kept others ⟨extension, reached⟩ parts
    exact ⟨(Store.enteringKeeps_extends store held).hold extension parts,
      reached.next (.hold parts)⟩

/-- What is done in a session happens beside every other pool as well. -/
theorem Reached.evolve
    {pool : Pool}
    {store later : Store}
    {held kept given : List Formula}
    (reached : Reached { store := { store with pool }, held, given })
    (evolves : Evolves store held later kept)
    (wellFormed : ∀ x ∈ held, WellFormed x)
    (sound : store.Sound held) :
    Reached { store := { later with pool }, held := kept, given } := by
  induction evolves with
  | rest => exact reached
  | next earlier transition inductionHypothesis =>
      cases transition with
      | enter drafted =>
          have sound := (earlier.extension wellFormed sound).sound
          have known := drafted.known (earlier.wellFormed wellFormed)
          exact ((enteringKeeps_beside _ _ pool given).enter _
            ⟨.refl sound, inductionHypothesis⟩ known).2
      | unpooled value =>
          exact inductionHypothesis.next (.unpooled _ value)
      | keep parts => exact inductionHypothesis.next (.hold parts)
      | sweep => exact inductionHypothesis.next (.log _ _)
      | log events => exact inductionHypothesis.next (.log _ events)

/-- A pool beside that of the store gives its literals in the same way. -/
theorem Reached.internIn
    {pool : Pool}
    {store : Store}
    {held given : List Formula}
    (reached : Reached { store := { store with pool }, held, given })
    (value : Rat) :
    Reached
      { store :=
          { (store.internIn pool held value).2.2 with
            pool := (store.internIn pool held value).2.1 }
        held := (store.internIn pool held value).1 :: held
        given := (store.internIn pool held value).1 :: given } := by
  have same : Store.intern held value { store with pool } =
      ((store.internIn pool held value).1,
        { (store.internIn pool held value).2.2 with
          pool := (store.internIn pool held value).2.1 }) := by
    cases found : pool.lookup? (Store.inUse held) value with
    | some id =>
        simp only [Store.intern, Store.internIn, found]
        rfl
    | none =>
        simp only [Store.intern, Store.internIn, found]
        rfl
  have next := reached.next (.intern _ value)
  simp only [interning, same] at next
  exact next

end Ledger

end ExactFormula
