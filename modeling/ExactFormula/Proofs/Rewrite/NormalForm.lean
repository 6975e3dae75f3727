import ExactFormula.Proofs.Rewrite.FixedPoint
import ExactFormula.Proofs.Rewrite.Value

/-!
# Normal forms

The shapes that the rules take away, said without the rules.  In a coherent formula
a rule matches exactly where one of these shapes is: what a rule would divide by is
never zero there, so no rule declines for that.  Hence a simplified formula has
none of the shapes, and a formula without them is simplified already.
-/

namespace ExactFormula
namespace Formula

/-- A literal of minus one and another literal are among the factors. -/
def HasSignToFold (factors : List Formula) : Prop :=
  ∃ before sign after, factors = before ++ sign :: after ∧ sign.literalValue? = some (-1) ∧
    ∃ other ∈ before ++ after, other.literalValue?.isSome = true

/-- A node has a shape that simplification takes away; constants are literals and named ones. -/
def Reducible : Formula → Prop
  | derived _ .add operands _ => ∃ x ∈ operands, x.isZero = true
  | derived _ .sub operands _ => ∃ x ∈ operands, x.isZero = true
  | derived _ .mul factors _ =>
      (∃ x ∈ factors, x.isZero = true ∨ x.isOne = true ∨ x.op? = some .div) ∨ HasSignToFold factors
  | derived _ .div [numerator, denominator] _ =>
      denominator.isOne = true ∨ numerator.isZero = true ∨
        numerator.op? = some .div ∨ denominator.op? = some .div
  | derived _ .pow operands _ => ∃ x ∈ operands, x.isZero = true ∨ x.isOne = true
  | _ => False

/-! ## Where a rule matches -/

section

variable {x y : Formula} {op : Operator} {operands factors : List Formula}

theorem exists_splitFirst?_eq_some
    {α β : Type}
    {test : α → Option β}
    {entries : List α}
    {x : α}
    (member : x ∈ entries)
    (passes : test x ≠ none) :
    ∃ before found after, splitFirst? test entries = some (before, found, after) := by
  induction entries with
  | nil => cases member
  | cons first rest inductionHypothesis =>
      unfold splitFirst?
      cases result : test first with
      | some found => exact ⟨[], found, rest, rfl⟩
      | none =>
          obtain rfl | later := List.mem_cons.mp member
          · exact absurd result passes
          · obtain ⟨before, found, after, split⟩ := inductionHypothesis later
            exact ⟨first :: before, found, after, by simp [split]⟩

/-- The operands of a coherent node are as many as its operator takes. -/
theorem Coherent.operandsOf?_eq
    {id : Option NodeId}
    {value : Rat}
    (coherent : Coherent (derived id op operands value)) :
    (derived id op operands value).operandsOf? op = some operands := by
  have accepted := Operator.accepts_of_apply_eq_ok (coherent_derived_iff.mp coherent).1
  rw [List.length_map] at accepted
  simp [operandsOf?, accepted]

/-- A coherent node of an operator that takes two operands has two. -/
theorem Coherent.exists_pair
    {id : Option NodeId}
    {value : Rat}
    (coherent : Coherent (derived id op operands value))
    (binary : op.arity = .exactly 2) :
    ∃ left right, operands = [left, right] ∧
      (derived id op operands value).pairOf? op = some (left, right) := by
  have accepted := Operator.accepts_of_apply_eq_ok (coherent_derived_iff.mp coherent).1
  rw [List.length_map, binary, Arity.accepts, decide_eq_true_iff] at accepted
  obtain ⟨left, right, rfl⟩ := List.length_eq_two.mp accepted
  exact ⟨left, right, rfl, by rw [pairOf?, coherent.operandsOf?_eq]⟩

/-- A coherent quotient is a fraction. -/
theorem Coherent.exists_fraction (coherent : Coherent x) (quotient : x.op? = some .div) :
    ∃ numerator denominator, x.fraction? = some (numerator, denominator) := by
  cases x with
  | derived id own operands value =>
      obtain rfl : own = .div := Option.some.inj quotient
      obtain ⟨numerator, denominator, _, found⟩ := coherent.exists_pair rfl
      exact ⟨numerator, denominator, found⟩
  | literal | constant | output => simp [op?] at quotient

theorem toOption_div_ne_none (nonzero : y.value ≠ 0) : (div x y).toOption ≠ none := by
  rw [div_eq_ok_iff.mpr ⟨nonzero, rfl⟩]
  exact Option.some_ne_none _

theorem dropIdentities?_ne_none
    {isIdentity : Formula → Bool}
    (found : x.operandsOf? op = some operands)
    (member : y ∈ operands)
    (identity : isIdentity y = true) :
    x.dropIdentities? op isIdentity ≠ none := by
  have shorter : (operands.filter fun operand => !isIdentity operand).length ≠ operands.length := by
    intro same
    have kept := List.length_filter_eq_length_iff.mp same y member
    simp [identity] at kept
  simp only [dropIdentities?, found, Option.bind_eq_bind, Option.bind_some, if_neg shorter]
  split <;> exact Option.some_ne_none _

/-- A fraction among the factors of a coherent product divides by something that is not zero. -/
theorem absorbFraction?_ne_none
    (coherent : Coherent x)
    (found : x.operandsOf? .mul = some factors)
    (member : y ∈ factors)
    (quotient : y.op? = some .div) :
    x.absorbFraction? ≠ none := by
  obtain ⟨_, _, inside⟩ := coherent.of_operandsOf? rfl found
  obtain ⟨_, _, isFraction⟩ := (inside y member).exists_fraction quotient
  have passes : fraction? y ≠ none := isFraction ▸ Option.some_ne_none _
  obtain ⟨before, ⟨numerator, denominator⟩, after, split⟩ :=
    exists_splitFirst?_eq_some member passes
  obtain ⟨_, first, firstFraction, rfl⟩ := splitFirst?_eq_some split
  obtain ⟨⟨nonzero, _⟩, _⟩ := (inside first (by simp)).of_fraction? firstFraction
  simp only [absorbFraction?, found, split, Option.bind_eq_bind, Option.bind_some]
  exact toOption_div_ne_none nonzero

/-- Whichever sign is found first, another literal is left. -/
theorem foldSign?_ne_none
    (found : x.operandsOf? .mul = some factors)
    (hasSign : HasSignToFold factors) :
    x.foldSign? ≠ none := by
  obtain ⟨before, sign, after, rfl, isSign, other, member, isLiteral⟩ := hasSign
  have passes : minusOne? sign ≠ none := by simp [minusOne?, isSign]
  have among : sign ∈ before ++ sign :: after := List.mem_append_right before List.mem_cons_self
  obtain ⟨front, _, back, split⟩ := exists_splitFirst?_eq_some among passes
  obtain ⟨_, first, isFirst, same⟩ := splitFirst?_eq_some split
  have firstLiteral : first.literalValue?.isSome = true := by
    simp only [minusOne?, Option.ite_none_right_eq_some] at isFirst
    rw [isFirst.1, Option.isSome_some]
  -- Both lists are the factors without one literal, so they have equally many literals.
  let literals (list : List Formula) : Nat := list.countP fun factor => factor.literalValue?.isSome
  have counted : literals (before ++ sign :: after) = literals (front ++ first :: back) :=
    congrArg literals same
  have positive : 0 < literals (before ++ after) :=
    List.countP_pos_iff.mpr ⟨other, member, isLiteral⟩
  have remaining : 0 < literals (front ++ back) := by
    simp only [literals, List.countP_append, List.countP_cons, isSign, firstLiteral,
      Option.isSome_some, if_true] at counted positive ⊢
    omega
  obtain ⟨literal, kept, literalValue⟩ := List.countP_pos_iff.mp remaining
  have read : literal.literalValue? ≠ none := Option.isSome_iff_ne_none.mp literalValue
  obtain ⟨_, number, _, second⟩ := exists_splitFirst?_eq_some kept read
  simp only [foldSign?, found, split, second, Option.bind_eq_bind, Option.bind_some]
  split <;> exact Option.some_ne_none _

/-- A fraction in a coherent fraction divides by something that is not zero. -/
theorem exists_apply_fraction_ne_none
    {numerator denominator : Formula}
    (coherent : Coherent x)
    (found : x.fraction? = some (numerator, denominator))
    (quotient : numerator.op? = some .div ∨ denominator.op? = some .div) :
    ∃ rule : Rule, rule.apply x ≠ none := by
  obtain ⟨⟨nonzero, _⟩, above, below⟩ := coherent.of_fraction? found
  obtain inNumerator | inDenominator := quotient
  · obtain ⟨_, bottom, inner⟩ := above.exists_fraction inNumerator
    obtain ⟨⟨bottomNonzero, _⟩, _⟩ := above.of_fraction? inner
    refine ⟨.numeratorIsFraction, ?_⟩
    simp only [Rule.apply, found, inner, Option.bind_eq_bind, Option.bind_some]
    exact toOption_div_ne_none (mul_ne_zero bottomNonzero nonzero)
  · obtain ⟨top, bottom, inner⟩ := below.exists_fraction inDenominator
    obtain ⟨⟨_, value⟩, _⟩ := below.of_fraction? inner
    have topNonzero : top.value ≠ 0 := by
      intro zero
      rw [zero, zero_div] at value
      exact nonzero value.symm
    refine ⟨.denominatorIsFraction, ?_⟩
    simp only [Rule.apply, found, inner, Option.bind_eq_bind, Option.bind_some]
    exact toOption_div_ne_none topNonzero

/-- The two rules for powers take every constant zero and one. -/
theorem exists_apply_power_ne_none
    {base exponent : Formula}
    (found : x.pairOf? .pow = some (base, exponent))
    (constant : (base.isZero = true ∨ base.isOne = true) ∨
      exponent.isZero = true ∨ exponent.isOne = true) :
    ∃ rule : Rule, rule.apply x ≠ none := by
  by_cases one : exponent.isOne = true
  · exact ⟨.powerIdentity, by simp [Rule.apply, found, one]⟩
  · refine ⟨.powerCollapse, ?_⟩
    simp only [Rule.apply, found, Option.bind_eq_bind, Option.bind_some]
    split
    · exact Option.some_ne_none _
    · split
      · exact Option.some_ne_none _
      · simp_all

/-- In a coherent node of one of the shapes, some rule matches. -/
theorem exists_apply_ne_none (coherent : Coherent x) (reducible : Reducible x) :
    ∃ rule : Rule, rule.apply x ≠ none := by
  cases x with
  | literal | constant | output => exact reducible.elim
  | derived id op operands value =>
      have found := coherent.operandsOf?_eq
      cases op with
      | floor => exact reducible.elim
      | add =>
          obtain ⟨y, member, zero⟩ := reducible
          exact ⟨.additiveIdentity, dropIdentities?_ne_none found member zero⟩
      | sub =>
          obtain ⟨y, member, zero⟩ := reducible
          obtain ⟨left, right, rfl, pair⟩ := coherent.exists_pair rfl
          rw [List.mem_pair] at member
          obtain rfl | rfl := member
          · exact ⟨.subtractionFromZero, by simp [Rule.apply, pair, zero]⟩
          · exact ⟨.subtractiveIdentity, by simp [Rule.apply, pair, zero]⟩
      | mul =>
          obtain ⟨y, member, zero | one | quotient⟩ | sign := reducible
          · exact ⟨.multiplicativeCollapse, by simpa [Rule.apply, found] using ⟨y, member, zero⟩⟩
          · exact ⟨.multiplicativeIdentity, dropIdentities?_ne_none found member one⟩
          · exact ⟨.productAbsorbsFraction, absorbFraction?_ne_none coherent found member quotient⟩
          · exact ⟨.signCollapse, foldSign?_ne_none found sign⟩
      | div =>
          obtain ⟨numerator, denominator, rfl, pair⟩ := coherent.exists_pair rfl
          obtain one | zero | quotient := reducible
          · exact ⟨.divisionIdentity, by simp [Rule.apply, fraction?, pair, one]⟩
          · exact ⟨.divisionCollapse, by simp [Rule.apply, fraction?, pair, zero]⟩
          · exact exists_apply_fraction_ne_none coherent pair quotient
      | pow =>
          obtain ⟨base, exponent, rfl, pair⟩ := coherent.exists_pair rfl
          refine exists_apply_power_ne_none pair ?_
          simpa [Reducible] using reducible

/-! ## What a match shows -/

/-- A chain from which something is left out has an identity element. -/
theorem exists_identity_of_length_filter_ne
    {isIdentity : Formula → Bool}
    (shorter : (operands.filter fun operand => !isIdentity operand).length ≠ operands.length) :
    ∃ y ∈ operands, isIdentity y = true := by
  by_contra none
  push Not at none
  refine shorter (List.length_filter_eq_length_iff.mpr fun y member => ?_)
  simpa using none y member

theorem reducible_of_identity
    {rule : Rule}
    {isIdentity : Formula → Bool}
    (identity : rule.Identity op isIdentity)
    (found : x.operandsOf? op = some operands)
    (shorter : (operands.filter fun operand => !isIdentity operand).length ≠ operands.length) :
    Reducible x := by
  obtain ⟨_, id, value, rfl⟩ := operandsOf?_eq_some found
  obtain ⟨y, member, isNeutral⟩ := exists_identity_of_length_filter_ne shorter
  cases identity with
  | sum => exact ⟨y, member, isNeutral⟩
  | product => exact .inl ⟨y, member, .inr (.inl isNeutral)⟩

/-- One operand, or none, is not the whole of a chain. -/
theorem few_ne_length
    {rule : Rule}
    {isIdentity : Formula → Bool}
    (identity : rule.Identity op isIdentity)
    (found : x.operandsOf? op = some operands)
    {kept : List Formula}
    (few : kept.length ≤ 1) :
    kept.length ≠ operands.length := by
  have accepted := (operandsOf?_eq_some found).1
  have long := (Operator.accepts_iff_two_le identity.isAssociative).mp accepted
  omega

theorem op?_of_fraction? {numerator denominator : Formula}
    (found : x.fraction? = some (numerator, denominator)) :
    x.op? = some .div := by
  obtain ⟨id, value, rfl⟩ := pairOf?_eq_some found
  rfl

theorem reducible_of_foldSign? (folded : x.foldSign? = some y) : Reducible x := by
  simp only [foldSign?, Option.bind_eq_bind, Option.bind_eq_some_iff] at folded
  obtain ⟨factors, found, ⟨before, _, after⟩, split, ⟨front, number, back⟩, second, _⟩ := folded
  obtain ⟨_, id, value, rfl⟩ := operandsOf?_eq_some found
  obtain ⟨_, sign, isSign, rfl⟩ := splitFirst?_eq_some split
  obtain ⟨_, other, isLiteral, others⟩ := splitFirst?_eq_some second
  simp only [minusOne?, Option.ite_none_right_eq_some] at isSign
  refine .inr ⟨before, sign, after, rfl, isSign.1, other, ?_, by rw [isLiteral, Option.isSome_some]⟩
  dsimp only at others
  rw [others]
  exact List.mem_append_right front List.mem_cons_self

/-- Where a rule matches, there is one of the shapes. -/
theorem reducible_of_apply {rule : Rule} (applied : rule.apply x = some y) : Reducible x := by
  cases Rule.effect_of_apply applied with
  | identities identity found nothing =>
      exact reducible_of_identity identity found (few_ne_length identity found (by simp [nothing]))
  | remainder identity found remaining =>
      exact reducible_of_identity identity found (few_ne_length identity found (by simp [remaining]))
  | remainders identity found shorter _ => exact reducible_of_identity identity found shorter
  | subtractedZero found zero | subtractedFromZero found zero =>
      obtain ⟨id, value, rfl⟩ := pairOf?_eq_some found
      exact ⟨_, by simp, zero⟩
  | zeroFactor found member zero =>
      obtain ⟨_, id, value, rfl⟩ := operandsOf?_eq_some found
      exact .inl ⟨_, member, .inl zero⟩
  | @absorbed _ quotient _ _ _ _ _ found isFraction _ =>
      obtain ⟨_, id, value, rfl⟩ := operandsOf?_eq_some found
      exact .inl ⟨quotient, by simp, .inr (.inr (op?_of_fraction? isFraction))⟩
  | folded | moved => exact reducible_of_foldSign? applied
  | dividedByOne found one =>
      obtain ⟨id, value, rfl⟩ := pairOf?_eq_some found
      exact .inl one
  | dividedZero found zero =>
      obtain ⟨id, value, rfl⟩ := pairOf?_eq_some found
      exact .inr (.inl zero)
  | dividedByFraction found divisor _ =>
      obtain ⟨id, value, rfl⟩ := pairOf?_eq_some found
      exact .inr (.inr (.inr (op?_of_fraction? divisor)))
  | dividedFraction found dividend _ =>
      obtain ⟨id, value, rfl⟩ := pairOf?_eq_some found
      exact .inr (.inr (.inl (op?_of_fraction? dividend)))
  | exponentOne found one =>
      obtain ⟨id, value, rfl⟩ := pairOf?_eq_some found
      exact ⟨_, by simp, .inr one⟩
  | exponentZero found zero =>
      obtain ⟨id, value, rfl⟩ := pairOf?_eq_some found
      exact ⟨_, by simp, .inl zero⟩
  | baseZero found _ zero =>
      obtain ⟨id, value, rfl⟩ := pairOf?_eq_some found
      exact ⟨_, by simp, .inl zero⟩
  | baseOne found one =>
      obtain ⟨id, value, rfl⟩ := pairOf?_eq_some found
      exact ⟨_, by simp, .inr one⟩

end

end Formula

open Formula

/-! ## Formulas at rest -/

theorem Rule.mem_all (rule : Rule) : rule ∈ Rule.all := by
  cases rule <;> decide

/-- A coherent formula is at rest under all rules exactly when it has none of the shapes. -/
theorem rests_all_iff {x : Formula} (coherent : Coherent x) :
    Rests Rule.all x ↔ Everywhere (¬Reducible ·) x := by
  constructor
  · intro rests node occurs reducible
    obtain ⟨rule, matched⟩ := exists_apply_ne_none (coherent.of_occurs occurs) reducible
    exact matched (rests rule rule.mem_all node occurs)
  · intro normal rule _ node occurs
    cases applied : rule.apply node with
    | none => rfl
    | some y => exact absurd (reducible_of_apply applied) (normal node occurs)

/--
Simplification of a coherent formula without powers of zero by zero leaves none of
the shapes that rules take away, at any depth.  A coherent formula that has none of
them is given back as the node that it is.
-/
theorem simplify_normal {x : Formula} (coherent : Coherent x) :
    (ZeroPowerFree x → ∀ held (store : Store),
      Everywhere (¬Reducible ·) (store.simplify Rule.all held x).1) ∧
    (Everywhere (¬Reducible ·) x → ∀ held (store : Store),
      (store.simplify Rule.all held x).1 = x) := by
  constructor
  · intro free held store
    obtain ⟨events, passes, hits, _, trail⟩ := store.trail_simplify Rule.all held x
    obtain ⟨coherentResult, _, _⟩ := sound_of_reaches coherent (.inr free) trail.reaches
    exact (rests_all_iff coherentResult).mp (Rewriting.rests_settle Rule.all held x store 0 0)
  · intro normal held store
    exact Store.simplify_eq_self ((rests_all_iff coherent).mpr normal) held store

/-- Three divided by four fifths is simplified, and four fifths is left as it is. -/
theorem simplify_normal_nested_fraction :
    let inner := ofValue .div [ofRat 4, ofRat 5] (4 / 5)
    let outer := ofValue .div [ofRat 3, inner] (3 / (4 / 5))
    Coherent outer ∧ ZeroPowerFree outer ∧ Reducible outer ∧
      Everywhere (¬Reducible ·) (({} : Store).simplify Rule.all [] outer).1 ∧
      Coherent inner ∧ Everywhere (¬Reducible ·) inner ∧
      (({} : Store).simplify Rule.all [] inner).1 = inner := by
  intro inner outer
  have coherentInner : Coherent inner :=
    coherent_of_div_eq_ok (coherent_literal none 4) (coherent_literal none 5)
      (div_eq_ok_iff.mpr ⟨by decide, rfl⟩)
  have coherentOuter : Coherent outer :=
    coherent_of_div_eq_ok (coherent_literal none 3) coherentInner
      (div_eq_ok_iff.mpr ⟨by decide +kernel, rfl⟩)
  have free : ZeroPowerFree outer := by
    simp [outer, inner, ofValue, splice, Operator.isAssociative, ofRat, ZeroPowerFree,
      everywhere_derived, everywhere_literal, IsZeroPower]
  have normal : Everywhere (¬Reducible ·) inner := by
    refine everywhere_derived.mpr ⟨?_, ?_⟩
    · rintro (one | zero | quotient | quotient)
      · exact absurd one (by decide +kernel)
      · exact absurd zero (by decide +kernel)
      · cases quotient
      · cases quotient
    · intro operand member
      obtain rfl | rfl := List.mem_pair.mp member <;> exact everywhere_literal.mpr id
  exact ⟨coherentOuter, free, .inr (.inr (.inr rfl)), (simplify_normal coherentOuter).1 free [] {},
    coherentInner, normal, (simplify_normal coherentInner).2 normal [] {}⟩

end ExactFormula
