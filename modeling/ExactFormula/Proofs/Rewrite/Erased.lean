import ExactFormula.Proofs.Rewrite.Lockstep
import ExactFormula.Proofs.Rewrite.Trail

/-!
# Constants as literals

Rules read the value of a constant and never its name.  So a formula and its
relabelling are simplified in lockstep: the same rules fire in the same order, at
formulas that stay relabellings of one another, whatever is held and whatever the
two stores contain.  Erasing the names, so that every constant becomes a literal, is
a relabelling for all rules but the folding of a sign, which asks for literals.
-/

namespace ExactFormula

/-- What an event tells about a rewriting, with formulas seen in some view. -/
def Event.told (view : Formula → Formula) : Event → Option Event
  | .rewrite rule before after => some (.rewrite rule (view before) (view after))
  | .settled passes hits => some (.settled passes hits)
  | .literal _ _ => none
  | .swept _ _ => none

/-- A literal that is looked up tells nothing. -/
theorem Event.IsLiteral.told
    {event : Event}
    (isLiteral : event.IsLiteral)
    (view : Formula → Formula) :
    event.told view = none := by
  cases event with
  | literal found value => rfl
  | rewrite rule before after => exact isLiteral.elim
  | settled passes hits => exact isLiteral.elim
  | swept evicted remaining => exact isLiteral.elim

namespace Formula

/-- A formula without identities, and with a literal in the place of every constant. -/
def erased : Formula → Formula :=
  relabel fun _ value => ofRat value

theorem keepsValues_ofRat : KeepsValues fun _ value => ofRat value :=
  fun _ _ => rfl

end Formula

open Formula

/-! ## What a run tells -/

namespace Store

/-- What one store has logged beyond another, seen in some view. -/
def Tells
    (view : Formula → Formula)
    (told : List Event)
    (earlier later : Store) :
    Prop :=
  ∃ events, later.log = earlier.log ++ events ∧ events.filterMap (Event.told view) = told

section

variable
  {view : Formula → Formula}
  {told further : List Event}
  {first second third : Store}

theorem Tells.refl : Tells view [] first first :=
  ⟨[], (List.append_nil _).symm, rfl⟩

theorem Tells.trans
    (earlier : Tells view told first second)
    (later : Tells view further second third) :
    Tells view (told ++ further) first third := by
  obtain ⟨events, logged, rfl⟩ := earlier
  obtain ⟨others, added, rfl⟩ := later
  exact ⟨events ++ others, by rw [added, logged, List.append_assoc], List.filterMap_append⟩

/-- What is told can be read off the events that were logged. -/
theorem Tells.since (tells : Tells view told first second) :
    (first.since second).filterMap (Event.told view) = told := by
  obtain ⟨events, logged, seen⟩ := tells
  rw [since_eq logged, seen]

/-- An event that is recorded is told, if there is anything in it to tell. -/
theorem tells_record (view : Formula → Formula) (store : Store) (event : Event) :
    Tells view (event.told view).toList store (store.record event) :=
  ⟨[event], rfl, by cases seen : event.told view <;> simp [seen]⟩

/-- Literals that are looked up tell nothing. -/
theorem LogsLiterals.tells (logs : LogsLiterals first second) : Tells view [] first second := by
  obtain ⟨events, logged, literals⟩ := logs
  refine ⟨events, logged, ?_⟩
  rw [List.filterMap_eq_nil_iff]
  exact fun event member => (literals event member).told view

end

/-- Two runs tell the same, each in its own view. -/
def TellAlike
    (view image : Formula → Formula)
    (first second other another : Store) :
    Prop :=
  ∃ told, Tells view told first second ∧ Tells image told other another

section

variable
  {view image : Formula → Formula}
  {first second third other another last : Store}

theorem TellAlike.refl : TellAlike view image first first other other :=
  ⟨[], .refl, .refl⟩

theorem TellAlike.trans
    (earlier : TellAlike view image first second other another)
    (later : TellAlike view image second third another last) :
    TellAlike view image first third other last := by
  obtain ⟨told, one, two⟩ := earlier
  obtain ⟨further, three, four⟩ := later
  exact ⟨told ++ further, one.trans three, two.trans four⟩

/-- Two events that tell the same may be recorded. -/
theorem tellAlike_record
    {event twin : Event}
    (same : twin.told image = event.told view) :
    TellAlike view image first (first.record event) other (other.record twin) :=
  ⟨_, tells_record view first event, same ▸ tells_record image other twin⟩

end

end Store

/-! ## Two runs -/

/-- A run and one on a relabelling go in lockstep, and tell the same of all that they do. -/
theorem lockstep_relabel
    (leaf : String → Rat → Formula)
    (start begun : Store) :
    Rewriting.Lockstep
      (fun x y => x.relabel leaf = y.shape)
      (fun _ _ => True)
      (fun store other => Store.TellAlike (relabel leaf) shape start store begun other) where
  hold _ _ := trivial
  enter {x y held others store other} _ telling same := by
    refine ⟨by rw [Store.relabel_enter, Store.shape_enter, same], telling.trans ⟨[], ?_, ?_⟩⟩
    · exact (Store.logsLiterals_enter held x store).tells
    · exact (Store.logsLiterals_enter others y other).tells
  rewrite rule telling before after :=
    telling.trans (Store.tellAlike_record (by rw [Event.told, Event.told, before, after]))
  settled _ _ telling := telling.trans (Store.tellAlike_record rfl)

namespace Store

/--
Without the folding of signs, a constant counts for no more than a literal of its value.
Simplifying a formula and then erasing the names gives what simplifying the erased
formula gives, by the same rewrites in the same order and as many passes.
-/
theorem simplify_erased
    {rules : List Rule}
    (unsigned : .signCollapse ∉ rules)
    {x y : Formula}
    (same : y.shape = x.erased)
    (held others : List Formula)
    (store other : Store) :
    (other.simplify rules others y).1.shape = (store.simplify rules held x).1.erased ∧
      (other.since (other.simplify rules others y).2).filterMap (Event.told shape) =
        (store.since (store.simplify rules held x).2).filterMap (Event.told erased) := by
  have matching : ∀ rule ∈ rules, Rewriting.MatchesAlike (fun x y => x.erased = y.shape) rule :=
    fun rule member => Rewriting.matchesAlike_relabel keepsValues_ofRat
      fun folds => absurd (folds ▸ member) unsigned
  obtain ⟨results, told, first, second⟩ :=
    (lockstep_relabel _ store other).simplify matching trivial same.symm .refl
  exact ⟨results.symm, second.since.trans first.since.symm⟩

/-- A factor one and a term zero are dropped under their names as they are without. -/
theorem simplify_erased_named_one :
    let rules := Rule.all.filter (· ≠ .signCollapse)
    let terms := derived (some 3) .add [constant (some 1) "none" 0, constant (some 2) "rate" 3] 3
    let x := derived (some 4) .mul [constant (some 0) "unit" 1, terms] 3
    let bare := derived (some 8) .add [literal (some 6) 0, literal (some 7) 3] 3
    let y := derived (some 9) .mul [literal (some 5) 1, bare] 3
    let first := simplify rules [] x { next := 5 }
    let second := simplify rules [] y { next := 10 }
    .signCollapse ∉ rules ∧ y.shape = x.erased ∧
      x.rewriteFirst? Rule.multiplicativeIdentity.apply = some terms ∧
      second.1.shape = first.1.erased ∧
      (since { next := 10 } second.2).filterMap (Event.told shape) =
        (since { next := 5 } first.2).filterMap (Event.told erased) := by
  intro rules terms x bare y first second
  have unsigned : .signCollapse ∉ rules := by decide
  have same : y.shape = x.erased := rfl
  obtain ⟨results, logs⟩ := simplify_erased unsigned same [] [] { next := 5 } { next := 10 }
  exact ⟨unsigned, same, rfl, results, logs⟩

/-- The folding of a sign takes literals only, so a name keeps a number apart. -/
example :
    let x := mul (ofRat (-1)) (named "rate" 3)
    Rule.signCollapse.apply x = none ∧
      Rule.signCollapse.apply x.erased = some (ofRat (-3)) :=
  ⟨rfl, rfl⟩

end Store
end ExactFormula
