import ExactFormula.Proofs.Derivation.Order
import Mathlib.Data.Set.Insert

/-!
# The names of a derivation

The outline of a formula lists its outputs as a reader meets them.  A derivation passes
over an output whose name it has met, with everything that stands inside, so it has a
step for each name of an output that is entered.  A name that stands only inside
outputs that are passed over has none; where names agree there is no such name.
-/

namespace ExactFormula

open Formula

/-! ## Outlines -/

/-- An output in an outline. -/
structure Heading where
  /-- The name of the output. -/
  name : String
  /-- The number of outputs that stand inside it; they are the next ones in the outline. -/
  inside : Nat

namespace Formula

mutual

/-- The outputs of a formula in the order of reading. -/
def outline : Formula → List Heading
  | literal _ _ => []
  | constant _ _ _ => []
  | output _ name inner => ⟨name, (outline inner).length⟩ :: outline inner
  | derived _ _ operands _ => outlineOf operands

/-- The outputs of some formulas in the order of reading. -/
def outlineOf : List Formula → List Heading
  | [] => []
  | x :: rest => outline x ++ outlineOf rest

end

mutual

/-- The names of an outline are those of the outputs. -/
theorem mem_outline_iff {name : String} :
    ∀ x : Formula,
      (∃ heading ∈ x.outline, heading.name = name) ↔ ∃ wrapped ∈ outputs x, wrapped.1 = name
  | literal _ _ => by simp [outline, outputs]
  | constant _ _ _ => by simp [outline, outputs]
  | output _ _ inner => by
      simp only [outline, List.mem_cons, exists_eq_or_imp, mem_outline_iff inner,
        mem_outputs_output_iff]
  | derived _ _ operands _ => by
      simp only [outline, mem_outlineOf_iff operands, mem_outputs_derived_iff]
      grind

theorem mem_outlineOf_iff {name : String} :
    ∀ operands : List Formula,
      (∃ heading ∈ outlineOf operands, heading.name = name) ↔
        ∃ x ∈ operands, ∃ wrapped ∈ outputs x, wrapped.1 = name
  | [] => by simp [outlineOf]
  | x :: rest => by
      simp only [outlineOf, List.mem_append, or_and_right, exists_or, mem_outline_iff x,
        mem_outlineOf_iff rest, List.mem_cons, exists_eq_left]

end

end Formula

/-- No output of an outline reaches beyond its end. -/
def Balanced (outline : List Heading) : Prop :=
  ∀ place heading, outline[place]? = some heading → place + heading.inside < outline.length

/-- Outlines one after the other reach no further than each of them. -/
theorem Balanced.append
    {first second : List Heading}
    (balancedFirst : Balanced first)
    (balancedSecond : Balanced second) :
    Balanced (first ++ second) := by
  intro place heading found
  rw [List.length_append]
  by_cases early : place < first.length
  · rw [List.getElem?_append_left early] at found
    have := balancedFirst place heading found
    omega
  · rw [List.getElem?_append_right (Nat.le_of_not_lt early)] at found
    have := balancedSecond _ heading found
    omega

/-- An output that contains all the others may stand in front of them. -/
theorem Balanced.cons
    {rest : List Heading}
    (balanced : Balanced rest)
    (name : String) :
    Balanced (⟨name, rest.length⟩ :: rest) := by
  intro place heading found
  rw [List.length_cons]
  cases place with
  | zero =>
      rw [List.getElem?_cons_zero, Option.some.injEq] at found
      rw [← found]
      exact Nat.lt_succ_of_le (Nat.le_of_eq (Nat.zero_add _))
  | succ place =>
      rw [List.getElem?_cons_succ] at found
      have := balanced place heading found
      omega

mutual

/-- No output in the outline of a formula reaches beyond its end. -/
theorem balanced_outline : ∀ x : Formula, Balanced x.outline
  | .literal _ _ => by simp [outline, Balanced]
  | .constant _ _ _ => by simp [outline, Balanced]
  | .output _ name inner => (balanced_outline inner).cons name
  | .derived _ _ operands _ => balanced_outlineOf operands

theorem balanced_outlineOf : ∀ operands : List Formula, Balanced (outlineOf operands)
  | [] => by simp [outlineOf, Balanced]
  | x :: rest => (balanced_outline x).append (balanced_outlineOf rest)

end

/-! ## Outputs that are entered -/

/--
The output at a place of an outline is entered when its name is not known from before,
the outputs around it are entered, and no output of its name is entered earlier.
-/
def Entered (known : Set String) (outline : List Heading) (place : Nat) : Prop :=
  ∃ heading, outline[place]? = some heading ∧ heading.name ∉ known ∧
    ∀ earlier, earlier < place → ∀ other, outline[earlier]? = some other →
      (place ≤ earlier + other.inside → Entered known outline earlier) ∧
        (other.name = heading.name → ¬Entered known outline earlier)
termination_by place

/-- The names of the outputs that are entered. -/
def enteredNames (known : Set String) (outline : List Heading) : Set String :=
  {name | ∃ place heading, Entered known outline place ∧ outline[place]? = some heading ∧
    heading.name = name}

section

variable {known : Set String} {first second rest : List Heading} {place : Nat} {name : String}

/-- Only places of the outline are entered. -/
theorem Entered.lt_length (entered : Entered known first place) : place < first.length := by
  rw [Entered] at entered
  obtain ⟨heading, found, _⟩ := entered
  exact (List.getElem?_eq_some_iff.mp found).1

/-- What stands at the beginning of an outline does not depend on what comes after it. -/
theorem entered_append_left (early : place < first.length) :
    Entered known (first ++ second) place ↔ Entered known first place := by
  induction place using Nat.strong_induction_on with
  | _ place inductionHypothesis =>
      rw [Entered, Entered, List.getElem?_append_left early]
      refine exists_congr fun heading => and_congr_right fun _ => and_congr_right fun _ => ?_
      refine forall₂_congr fun earlier before => ?_
      rw [List.getElem?_append_left (before.trans early),
        inductionHypothesis earlier before (before.trans early)]

theorem getElem?_append_add (first second : List Heading) (later : Nat) :
    (first ++ second)[first.length + later]? = second[later]? := by
  rw [List.getElem?_append_right (Nat.le_add_right _ _), Nat.add_sub_cancel_left]

/-- What comes later is entered as if it stood alone and the names entered so far were known. -/
theorem entered_append_right (balanced : Balanced first) :
    Entered known (first ++ second) (first.length + place) ↔
      Entered (known ∪ enteredNames known first) second place := by
  induction place using Nat.strong_induction_on with
  | _ place inductionHypothesis =>
      rw [Entered, Entered, getElem?_append_add]
      refine exists_congr fun heading => and_congr_right fun _ => ?_
      constructor
      · rintro ⟨unknown, clear⟩
        constructor
        · rintro (met | ⟨earlier, other, entered, found, same⟩)
          · exact unknown met
          · have early := entered.lt_length
            have beside : (first ++ second)[earlier]? = some other := by
              rw [List.getElem?_append_left early, found]
            exact (clear earlier (by omega) other beside).2 same
              ((entered_append_left early).mpr entered)
        · intro earlier before other found
          have given := clear (first.length + earlier) (by omega) other
            ((getElem?_append_add first second earlier).trans found)
          rw [inductionHypothesis earlier before] at given
          exact ⟨fun around => given.1 (by omega), given.2⟩
      · rintro ⟨unknown, clear⟩
        refine ⟨fun met => unknown (.inl met), fun earlier before other found => ?_⟩
        by_cases early : earlier < first.length
        · rw [List.getElem?_append_left early] at found
          rw [entered_append_left early]
          refine ⟨fun around => ?_, fun same entered => unknown (.inr ?_)⟩
          · -- Nothing of the first part reaches into the second one.
            have := balanced earlier other found
            omega
          · exact ⟨earlier, other, entered, found, same⟩
        · obtain ⟨later, rfl⟩ := Nat.exists_eq_add_of_le (Nat.le_of_not_lt early)
          rw [inductionHypothesis later (by omega)]
          have given := clear later (by omega) other
            ((getElem?_append_add first second later).symm.trans found)
          exact ⟨fun around => given.1 (by omega), given.2⟩

theorem entered_cons_zero {inside : Nat} :
    Entered known (⟨name, inside⟩ :: rest) 0 ↔ name ∉ known := by
  rw [Entered]
  simp

/-- What stands inside an output is entered only if the output is, and has another name then. -/
theorem entered_cons_succ :
    Entered known (⟨name, rest.length⟩ :: rest) (place + 1) ↔
      name ∉ known ∧ Entered (insert name known) rest place := by
  induction place using Nat.strong_induction_on with
  | _ place inductionHypothesis =>
      rw [Entered, Entered, List.getElem?_cons_succ]
      constructor
      · rintro ⟨heading, found, unknown, clear⟩
        have here := (List.getElem?_eq_some_iff.mp found).1
        have atTop := clear 0 (by omega) ⟨name, rest.length⟩ rfl
        have top := atTop.1 (by simp only; omega)
        have new := entered_cons_zero.mp top
        refine ⟨new, heading, found, ?_, fun earlier before other foundOther => ?_⟩
        · rintro (same | met)
          · exact atTop.2 same.symm top
          · exact unknown met
        · have given := clear (earlier + 1) (by omega) other foundOther
          rw [inductionHypothesis earlier before] at given
          exact ⟨fun around => (given.1 (by omega)).2,
            fun same entered => given.2 same ⟨new, entered⟩⟩
      · rintro ⟨new, heading, found, unknown, clear⟩
        refine ⟨heading, found, fun met => unknown (.inr met), ?_⟩
        intro earlier before other foundOther
        cases earlier with
        | zero =>
            rw [List.getElem?_cons_zero, Option.some.injEq] at foundOther
            refine ⟨fun _ => entered_cons_zero.mpr new, fun same _ => unknown (.inl ?_)⟩
            rw [← same, ← foundOther]
        | succ earlier =>
            have given := clear earlier (by omega) other foundOther
            rw [inductionHypothesis earlier (by omega)]
            exact ⟨fun around => ⟨new, given.1 (by omega)⟩,
              fun same entered => given.2 same entered.2⟩

/-! ## Names that are entered -/

theorem enteredNames_nil : enteredNames known [] = ∅ := by
  simp [enteredNames]

/-- The second of two outlines is entered with the names of the first one known. -/
theorem enteredNames_append (balanced : Balanced first) :
    enteredNames known (first ++ second) =
      enteredNames known first ∪ enteredNames (known ∪ enteredNames known first) second := by
  ext name
  constructor
  · rintro ⟨place, heading, entered, found, rfl⟩
    by_cases early : place < first.length
    · rw [List.getElem?_append_left early] at found
      exact .inl ⟨place, heading, (entered_append_left early).mp entered, found, rfl⟩
    · have late := Nat.le_of_not_lt early
      obtain ⟨later, rfl⟩ := Nat.exists_eq_add_of_le late
      rw [getElem?_append_add] at found
      exact .inr ⟨later, heading, (entered_append_right balanced).mp entered, found, rfl⟩
  · rintro (⟨place, heading, entered, found, rfl⟩ | ⟨place, heading, entered, found, rfl⟩)
    · have early := entered.lt_length
      refine ⟨place, heading, (entered_append_left early).mpr entered, ?_, rfl⟩
      rw [List.getElem?_append_left early, found]
    · refine ⟨first.length + place, heading, (entered_append_right balanced).mpr entered, ?_, rfl⟩
      rw [getElem?_append_add, found]

/-- Nothing is entered in an output of a known name. -/
theorem enteredNames_cons_of_mem (met : name ∈ known) :
    enteredNames known (⟨name, rest.length⟩ :: rest) = ∅ := by
  rw [Set.eq_empty_iff_forall_notMem]
  rintro entry ⟨place, heading, entered, _, _⟩
  cases place with
  | zero => exact entered_cons_zero.mp entered met
  | succ place => exact (entered_cons_succ.mp entered).1 met

/-- An output of a new name is entered, and its name is known inside it. -/
theorem enteredNames_cons_of_notMem (new : name ∉ known) :
    enteredNames known (⟨name, rest.length⟩ :: rest) =
      insert name (enteredNames (insert name known) rest) := by
  ext entry
  constructor
  · rintro ⟨place, heading, entered, found, rfl⟩
    cases place with
    | zero =>
        rw [List.getElem?_cons_zero, Option.some.injEq] at found
        exact .inl (congrArg Heading.name found).symm
    | succ place => exact .inr ⟨place, heading, (entered_cons_succ.mp entered).2, found, rfl⟩
  · rintro (rfl | ⟨place, heading, entered, found, rfl⟩)
    · exact ⟨0, _, entered_cons_zero.mpr new, rfl, rfl⟩
    · exact ⟨place + 1, heading, entered_cons_succ.mpr ⟨new, entered⟩, found, rfl⟩

end

/-! ## The names of the steps -/

namespace Derivation

/-- The names that have been met. -/
def met (derivation : Derivation) : Set String :=
  {name | name ∈ derivation.seen}

mutual

/-- A visit meets the names that are entered. -/
theorem met_visit :
    ∀ (x : Formula) (derivation : Derivation),
      (visit x derivation).met = derivation.met ∪ enteredNames derivation.met x.outline
  | .literal _ _, derivation => by simp [visit, outline, enteredNames_nil]
  | .constant _ _ _, derivation => by simp [visit, outline, enteredNames_nil]
  | .output _ name inner, derivation => by
      by_cases known : name ∈ derivation.seen
      · have old : name ∈ derivation.met := known
        rw [visit, if_pos known, outline, enteredNames_cons_of_mem old, Set.union_empty]
      · have new : name ∉ derivation.met := known
        have inside := met_visit inner { derivation with seen := name :: derivation.seen }
        have entering : Derivation.met { derivation with seen := name :: derivation.seen } =
            insert name derivation.met := by
          ext other
          exact List.mem_cons
        rw [entering] at inside
        rw [visit, if_neg known, outline, enteredNames_cons_of_notMem new, Set.union_insert,
          ← Set.insert_union, ← inside]
        rfl
  | .derived _ _ operands _, derivation => met_visitAll operands derivation

theorem met_visitAll :
    ∀ (operands : List Formula) (derivation : Derivation),
      (visitAll operands derivation).met =
        derivation.met ∪ enteredNames derivation.met (outlineOf operands)
  | [], derivation => by simp [visitAll, outlineOf, enteredNames_nil]
  | x :: rest, derivation => by
      rw [visitAll, met_visitAll rest, met_visit x, outlineOf,
        enteredNames_append (balanced_outline x), Set.union_assoc]

end

end Derivation

namespace Formula

/-- The names of the steps are those of the outputs that are entered. -/
theorem mem_derivation_iff {x : Formula} {name : String} :
    name ∈ x.derivation.map Step.name ↔ name ∈ enteredNames ∅ x.outline := by
  obtain ⟨added, adds⟩ := Derivation.exists_adds_visit x {}
  have steps : x.derivation.map Step.name = added.map Prod.fst := by
    rw [derivation, adds.steps, List.nil_append, List.map_map]
    rfl
  have seen := adds.seen name
  have start : Derivation.met {} = ∅ := by
    ext other
    exact List.mem_nil_iff other
  have met : name ∈ (Derivation.visit x {}).met ↔ name ∈ enteredNames ∅ x.outline := by
    rw [Derivation.met_visit, start, Set.empty_union]
  rw [steps, ← met]
  exact (seen.trans (or_iff_right List.not_mem_nil)).symm

/-- The names in an outline are those of the outputs that occur. -/
theorem mem_outline_iff_occurs {x : Formula} {name : String} :
    (∃ heading ∈ x.outline, heading.name = name) ↔ ∃ id inner, Occurs (output id name inner) x := by
  rw [mem_outline_iff]
  constructor
  · rintro ⟨⟨_, inner⟩, member, rfl⟩
    obtain ⟨id, occurs⟩ := mem_outputs_iff.mp member
    exact ⟨id, inner, occurs⟩
  · rintro ⟨id, inner, occurs⟩
    exact ⟨(name, inner), mem_outputs_iff.mpr ⟨id, occurs⟩, rfl⟩

/--
No two steps have one name, and their names are those of the outputs that are entered.
So the names of all outputs are there exactly when each of them is the name of an
output that is entered, and it is where names agree.
-/
theorem names_derivation (x : Formula) :
    (x.derivation.map Step.name).Nodup ∧
      (∀ name, name ∈ x.derivation.map Step.name ↔ name ∈ enteredNames ∅ x.outline) ∧
      ((∀ name, name ∈ x.derivation.map Step.name ↔ ∃ id inner, Occurs (output id name inner) x) ↔
        ∀ heading ∈ x.outline, heading.name ∈ enteredNames ∅ x.outline) ∧
      (NamesAgree x → ∀ heading ∈ x.outline, heading.name ∈ enteredNames ∅ x.outline) := by
  have nodup : (x.derivation.map Step.name).Nodup := by
    obtain ⟨added, adds⟩ := Derivation.exists_adds_visit x {}
    rw [derivation, adds.steps, List.nil_append, List.map_map]
    exact adds.nodup
  have entered (name : String) : name ∈ enteredNames ∅ x.outline →
      ∃ id inner, Occurs (output id name inner) x := by
    rintro ⟨place, heading, _, found, same⟩
    exact mem_outline_iff_occurs.mp ⟨heading, List.mem_of_getElem? found, same⟩
  refine ⟨nodup, fun _ => mem_derivation_iff, ⟨?_, ?_⟩, ?_⟩
  · intro complete heading member
    exact mem_derivation_iff.mp
      ((complete heading.name).mpr (mem_outline_iff_occurs.mp ⟨heading, member, rfl⟩))
  · intro all name
    refine ⟨fun taken => entered name (mem_derivation_iff.mp taken), fun occurs => ?_⟩
    obtain ⟨heading, member, rfl⟩ := mem_outline_iff_occurs.mpr occurs
    exact mem_derivation_iff.mpr (all heading member)
  · intro agree heading member
    obtain ⟨id, inner, occurs⟩ := mem_outline_iff_occurs.mp ⟨heading, member, rfl⟩
    have taken := agree.finished.taken (heading.name, inner) (mem_outputs_iff.mpr ⟨id, occurs⟩)
    exact mem_derivation_iff.mp (List.mem_map_of_mem taken)

/-- An output that stands only inside one whose name has been met has no step. -/
theorem names_derivation_repeated_name :
    let x := add (labelled "a" (ofRat 1)) (labelled "a" (labelled "b" (ofRat 2)))
    Occurs (labelled "b" (ofRat 2)) x ∧ x.derivation.map Step.name = ["a"] :=
  ⟨.operand (List.mem_cons_of_mem _ List.mem_cons_self) (.inner .root), rfl⟩

end Formula

end ExactFormula
