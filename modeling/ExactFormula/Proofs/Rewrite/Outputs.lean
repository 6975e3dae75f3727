import ExactFormula.Proofs.Formula.Gather
import ExactFormula.Proofs.Rewrite.Context
import ExactFormula.Proofs.Rewrite.Unstored

/-!
# Outputs under simplification

Rules neither look inside an output nor make copies of one.  So whatever happens
to the formula that an output wraps is a run of its own, and in the end that
formula has been simplified as if it had stood alone.
-/

namespace ExactFormula
namespace Formula

variable {α : Type}
variable {constantPart : String → Rat → Multiset α} {outputPart : String → Formula → Multiset α}

/-! ## One rewrite -/

/-- A rule takes every operand at most once. -/
theorem gather_le_of_effect
    {rule : Rule}
    {x y : Formula}
    (effect : rule.Effect x y) :
    gather constantPart outputPart y ≤ gather constantPart outputPart x := by
  cases effect with
  | identities => exact Multiset.zero_le _
  | remainder _ found remaining =>
      rw [gather_of_operandsOf? found]
      exact gather_le_of_mem (List.mem_of_mem_filter (remaining.symm ▸ List.mem_singleton_self y))
  | remainders _ found =>
      rw [gather_of_operandsOf? found, gather_ofValue]
      exact gatherAll_le_of_sublist List.filter_sublist
  | subtractedZero found =>
      rw [gather_of_pairOf? found]
      exact Multiset.le_add_right _ _
  | subtractedFromZero found =>
      rw [gather_of_pairOf? found, gather_mul]
      exact Multiset.add_le_add_right (Multiset.zero_le _)
  | zeroFactor => exact Multiset.zero_le _
  | absorbed found isFraction built =>
      rw [gather_of_operandsOf? found, gather_of_div_eq_ok built, gather_product]
      simp only [gatherAll_append, gatherAll_cons, gatherAll_nil, gather_of_pairOf? isFraction]
      exact le_of_eq (by abel)
  | folded => exact Multiset.zero_le _
  | @moved _ sign other before after front back number found _ others =>
      rw [gather_of_operandsOf? found, gather_ofValue]
      have joined := congrArg (gatherAll constantPart outputPart) others
      simp only [gatherAll_append, gatherAll_cons] at joined ⊢
      calc
        gatherAll constantPart outputPart front +
              (gather constantPart outputPart (ofRat (-number)) +
                gatherAll constantPart outputPart back)
            ≤ gatherAll constantPart outputPart front +
                (gather constantPart outputPart other + gatherAll constantPart outputPart back) := by
              exact Multiset.add_le_add_left (Multiset.add_le_add_right (Multiset.zero_le _))
        _ = gatherAll constantPart outputPart before + gatherAll constantPart outputPart after :=
              joined.symm
        _ ≤ gatherAll constantPart outputPart before +
              (gather constantPart outputPart sign + gatherAll constantPart outputPart after) := by
              exact Multiset.add_le_add_left (Multiset.le_add_left _ _)
  | dividedByOne found =>
      rw [gather_of_pairOf? found]
      exact Multiset.le_add_right _ _
  | dividedZero => exact Multiset.zero_le _
  | dividedByFraction found divisor built =>
      rw [gather_of_pairOf? found, gather_of_div_eq_ok built, gather_mul, gather_of_pairOf? divisor]
      exact le_of_eq (by abel)
  | dividedFraction found dividend built =>
      rw [gather_of_pairOf? found, gather_of_div_eq_ok built, gather_mul, gather_of_pairOf? dividend]
      exact le_of_eq (by abel)
  | exponentOne found =>
      rw [gather_of_pairOf? found]
      exact Multiset.le_add_right _ _
  | exponentZero => exact Multiset.zero_le _
  | baseZero => exact Multiset.zero_le _
  | baseOne => exact Multiset.zero_le _

mutual

/-- A rewrite gathers no more than there was, if it does so where the rule matches. -/
theorem gather_rewriteFirst?_le
    {rule : Formula → Option Formula}
    (lowers : ∀ x y, rule x = some y →
      gather constantPart outputPart y ≤ gather constantPart outputPart x)
    (stable : ∀ name x y, rewriteFirst? rule x = some y →
      outputPart name y ≤ outputPart name x) :
    ∀ (x : Formula) {y : Formula}, rewriteFirst? rule x = some y →
      gather constantPart outputPart y ≤ gather constantPart outputPart x
  | literal _ _, _, rewritten => lowers _ _ rewritten
  | constant _ _ _, _, rewritten => lowers _ _ rewritten
  | output _ name inner, _, rewritten => by
      simp only [rewriteFirst?, Option.map_eq_some_iff] at rewritten
      obtain ⟨rebuilt, found, rfl⟩ := rewritten
      exact add_le_add (stable name inner rebuilt found)
        (gather_rewriteFirst?_le lowers stable inner found)
  | derived id op operands value, y, rewritten => by
      unfold rewriteFirst? at rewritten
      cases matched : rule (derived id op operands value) with
      | some replacement =>
          simp only [matched, Option.some.injEq] at rewritten
          subst rewritten
          exact lowers _ _ matched
      | none =>
          simp only [matched, Option.map_eq_some_iff] at rewritten
          obtain ⟨rebuilt, found, rfl⟩ := rewritten
          rw [gather_ofValue]
          exact gatherAll_rewriteFirstOf?_le lowers stable operands found

theorem gatherAll_rewriteFirstOf?_le
    {rule : Formula → Option Formula}
    (lowers : ∀ x y, rule x = some y →
      gather constantPart outputPart y ≤ gather constantPart outputPart x)
    (stable : ∀ name x y, rewriteFirst? rule x = some y →
      outputPart name y ≤ outputPart name x) :
    ∀ (operands : List Formula) {rebuilt : List Formula},
      rewriteFirstOf? rule operands = some rebuilt →
        gatherAll constantPart outputPart rebuilt ≤ gatherAll constantPart outputPart operands
  | [], _, rewritten => by simp [rewriteFirstOf?] at rewritten
  | x :: rest, _, rewritten => by
      unfold rewriteFirstOf? at rewritten
      cases found : rewriteFirst? rule x with
      | some y =>
          simp only [found, Option.some.injEq] at rewritten
          subst rewritten
          exact Multiset.add_le_add_right (gather_rewriteFirst?_le lowers stable x found)
      | none =>
          simp only [found, Option.map_eq_some_iff] at rewritten
          obtain ⟨rebuilt, inRest, rfl⟩ := rewritten
          exact Multiset.add_le_add_left (gatherAll_rewriteFirstOf?_le lowers stable rest inRest)

end

/-! ## Whole runs -/

/-- The outputs of a formula, with something done to what they wrap. -/
def outputsBy (f : Formula → Formula) (x : Formula) : Multiset (String × Formula) :=
  (outputs x).map fun wrapped => (wrapped.1, f wrapped.2)

theorem outputsBy_eq_gather (f : Formula → Formula) (x : Formula) :
    outputsBy f x = gather (fun _ _ => 0) (fun name inner => {(name, f inner)}) x :=
  map_outputs f x

theorem outputsBy_comp (f g : Formula → Formula) (x : Formula) :
    outputsBy (f ∘ g) x = (outputsBy g x).map fun wrapped => (wrapped.1, f wrapped.2) := by
  rw [outputsBy, outputsBy, Multiset.map_map]
  rfl

/-- Nothing has been done to the outputs if what they wrap has stayed as it was. -/
theorem outputsBy_congr
    {f g : Formula → Formula}
    {x : Formula}
    (same : ∀ name inner, (name, inner) ∈ outputs x → f inner = g inner) :
    outputsBy f x = outputsBy g x := by
  apply Multiset.map_congr rfl
  intro wrapped member
  rw [same wrapped.1 wrapped.2 member]

/-- Where outputs are contained in others, they still are when the same is done to both. -/
theorem outputsBy_le
    {f g : Formula → Formula}
    (h : Formula → Formula)
    {x y : Formula}
    (le : outputsBy f y ≤ outputsBy g x) :
    outputsBy (h ∘ f) y ≤ outputsBy (h ∘ g) x := by
  rw [outputsBy_comp, outputsBy_comp]
  exact Multiset.map_le_map le

/-- Where nothing matches, nothing matches inside an output either. -/
theorem rewriteFirst?_eq_none_of_mem_outputs
    {rule : Formula → Option Formula}
    {name : String}
    {inner x : Formula}
    (member : (name, inner) ∈ outputs x)
    (quiet : x.rewriteFirst? rule = none) :
    inner.rewriteFirst? rule = none := by
  obtain ⟨id, occurs⟩ := mem_outputs_iff.mp member
  exact rewriteFirst?_eq_none_of_occurs (.trans (.inner .root) occurs) quiet

/-- A rewrite inside an output is one that exhausting the rule there would have made too. -/
theorem outputsBy_rewriteFirst?_le
    {rule : Rule}
    {x y : Formula}
    (rewritten : x.rewriteFirst? rule.apply = some y) :
    outputsBy (exhausted rule) y ≤ outputsBy (exhausted rule) x := by
  rw [outputsBy_eq_gather, outputsBy_eq_gather]
  refine gather_rewriteFirst?_le ?_ ?_ x rewritten
  · intro before after applied
    exact gather_le_of_effect (Rule.effect_of_apply applied)
  · intro name before after inside
    rw [exhausted_of_rewriteFirst?_eq_some inside]

/-- Exhausting a rule leaves outputs of before, each as exhausting the rule in it alone would. -/
theorem outputs_exhausted_le (rule : Rule) (x : Formula) :
    outputsBy id (exhausted rule x) ≤ outputsBy (exhausted rule) x := by
  have run : outputsBy (exhausted rule) (exhausted rule x) ≤ outputsBy (exhausted rule) x := by
    fun_induction exhausted rule x with
    | case1 x quiet => exact le_refl _
    | case2 x y found inductionHypothesis =>
        exact inductionHypothesis.trans (outputsBy_rewriteFirst?_le found)
  -- What stands in an output at the end is exhausted already.
  have settled : outputsBy id (exhausted rule x) =
      outputsBy (exhausted rule) (exhausted rule x) := by
    apply outputsBy_congr
    intro name inner member
    have quiet := rewriteFirst?_eq_none_of_mem_outputs member (rewriteFirst?_exhausted rule x)
    exact (exhausted_of_rewriteFirst?_eq_none quiet).symm
  rw [settled]
  exact run

/-- A pass leaves outputs of before, each as a pass over it alone would. -/
theorem outputs_passed_le (rules : List Rule) (x : Formula) :
    outputsBy id (passed rules x) ≤ outputsBy (passed rules) x := by
  induction rules generalizing x with
  | nil => exact le_refl _
  | cons rule rules inductionHypothesis =>
      exact (inductionHypothesis (exhausted rule x)).trans
        (outputsBy_le (passed rules) (outputs_exhausted_le rule x))

/-- The outputs of a simplified formula were outputs before, and have been simplified alone. -/
theorem outputs_simplified_le (rules : List Rule) (x : Formula) :
    outputsBy id (simplified rules x) ≤ outputsBy (simplified rules) x := by
  fun_induction simplified rules x with
  | case1 x lower inductionHypothesis =>
      calc
        outputsBy id (simplified rules (passed rules x))
            ≤ outputsBy (simplified rules) (passed rules x) := inductionHypothesis
        _ ≤ outputsBy (simplified rules ∘ passed rules) x :=
            outputsBy_le (simplified rules) (outputs_passed_le rules x)
        _ = outputsBy (simplified rules) x :=
            outputsBy_congr fun _ inner _ => simplified_passed rules inner
  | case2 x quiet =>
      have matchless := rewriteFirst?_eq_none_of_passed_eq
        ((passed_eq_or_weight_lt rules x).resolve_right quiet)
      apply le_of_eq
      apply outputsBy_congr
      intro name inner member
      have inside : ∀ rule ∈ rules, inner.rewriteFirst? rule.apply = none := by
        intro rule used
        exact rewriteFirst?_eq_none_of_mem_outputs member (matchless rule used)
      exact (simplified_eq_self inside).symm

/-! ## A formula that is an output -/

theorem exhausted_labelled (rule : Rule) (name : String) (x : Formula) :
    exhausted rule (labelled name x) = labelled name (exhausted rule x) := by
  fun_induction exhausted rule x with
  | case1 x quiet =>
      refine exhausted_of_rewriteFirst?_eq_none ?_
      rw [labelled, rewriteFirst?, quiet, Option.map_none]
  | case2 x y found inductionHypothesis =>
      rw [← inductionHypothesis]
      refine exhausted_of_rewriteFirst?_eq_some ?_
      rw [labelled, rewriteFirst?, found, Option.map_some]

theorem passed_labelled (rules : List Rule) (name : String) (x : Formula) :
    passed rules (labelled name x) = labelled name (passed rules x) := by
  induction rules generalizing x with
  | nil => rfl
  | cons rule rules inductionHypothesis =>
      rw [passed, exhausted_labelled, inductionHypothesis, passed]

/-- Simplifying an output simplifies what it wraps. -/
theorem simplified_labelled (rules : List Rule) (name : String) (x : Formula) :
    simplified rules (labelled name x) = labelled name (simplified rules x) := by
  have weight (y : Formula) : (labelled name y).weight = y.weight + 1 := rfl
  fun_induction simplified rules x with
  | case1 x lower inductionHypothesis =>
      rw [← inductionHypothesis, ← passed_labelled, simplified_passed]
  | case2 x quiet =>
      rw [simplified, passed_labelled, weight, weight, if_neg (by omega)]

end Formula

/--
The outputs of a simplified formula are outputs of the formula under their
names, no more often than there, and each wraps what simplification makes of the
wrapped formula alone.  An output as a whole keeps its name around the simplified
formula, and structurally equal formulas are simplified to such wherever they
stand.
-/
theorem Store.outputs_simplify
    (rules : List Rule)
    (held : List Formula)
    (x : Formula)
    (store : Store) :
    (∀ others (other : Store),
        ((store.simplify rules held x).1.outputs.map fun wrapped =>
            (wrapped.1, wrapped.2.shape)) ≤
          x.outputs.map fun wrapped =>
            (wrapped.1, (other.simplify rules others wrapped.2).1.shape)) ∧
      (∀ id name result others (other : Store),
        Formula.Occurs (.output id name result) (store.simplify rules held x).1 →
          ∃ id inner, Formula.Occurs (.output id name inner) x ∧
            result.shape = (other.simplify rules others inner).1.shape) ∧
      (∀ id name others (other : Store),
        (store.simplify rules held (.output id name x)).1.shape =
          .labelled name (other.simplify rules others x).1.shape) ∧
      ∀ y others (other : Store), x.shape = y.shape →
        (store.simplify rules held x).1.shape = (other.simplify rules others y).1.shape := by
  have simplified (inner : Formula) (others : List Formula) (other : Store) :
      (other.simplify rules others inner).1.shape = Formula.simplified rules inner.shape :=
    Store.shape_simplify rules others inner other
  have contained : ∀ others (other : Store),
      ((store.simplify rules held x).1.outputs.map fun wrapped =>
          (wrapped.1, wrapped.2.shape)) ≤
        x.outputs.map fun wrapped =>
          (wrapped.1, (other.simplify rules others wrapped.2).1.shape) := by
    intro others other
    have le := Formula.outputs_simplified_le rules x.shape
    rw [← simplified x held store] at le
    simp only [Formula.outputsBy, Formula.outputs_shape, Multiset.map_map, Function.comp_def,
      id_eq] at le
    simpa only [simplified] using le
  refine ⟨contained, ?_, ?_, ?_⟩
  · intro id name result others other occurs
    have member := Multiset.mem_of_le (contained others other)
      (Multiset.mem_map_of_mem _ (Formula.mem_outputs_of_occurs occurs))
    obtain ⟨⟨shown, inner⟩, present, same⟩ := Multiset.mem_map.mp member
    simp only [Prod.mk.injEq] at same
    obtain ⟨rfl, same⟩ := same
    obtain ⟨found, stands⟩ := Formula.mem_outputs_iff.mp present
    exact ⟨found, inner, stands, same.symm⟩
  · intro id name others other
    rw [simplified, simplified]
    exact Formula.simplified_labelled rules name x.shape
  · intro y others other same
    rw [simplified, simplified, same]

end ExactFormula
