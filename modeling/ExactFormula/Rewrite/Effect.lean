import ExactFormula.Rewrite.Rule

/-!
# Effects of rules

What a rule found where it applied, and what it built of that.  Whatever is
said of the rules is a case analysis over their effects.
-/

namespace ExactFormula

namespace Formula

theorem toOption_eq_some
    {result : Except Failure Formula}
    {x : Formula}
    (taken : result.toOption = some x) :
    result = .ok x := by
  cases result with
  | error cause => simp [Except.toOption] at taken
  | ok y => simpa [Except.toOption] using taken

/-- The value of a literal is that of the formula. -/
theorem value_of_literalValue?
    {x : Formula}
    {value : Rat}
    (found : x.literalValue? = some value) :
    x.value = value := by
  cases x with
  | literal id held => exact Option.some.inj found
  | _ => simp [literalValue?] at found

theorem value_of_minusOne? {x : Formula} {found : Unit} (sign : minusOne? x = some found) :
    x.value = -1 := by
  simp only [minusOne?, Option.ite_none_right_eq_some] at sign
  exact value_of_literalValue? sign.1

end Formula

open Formula

namespace Rule

/-- The rules that leave out the identity elements of a chain. -/
inductive Identity : Rule → Operator → (Formula → Bool) → Prop
  | sum : Identity additiveIdentity .add isZero
  | product : Identity multiplicativeIdentity .mul isOne

/-- A rule applies to a formula and gives another. -/
inductive Effect : Rule → Formula → Formula → Prop
  /-- A chain of identity elements becomes a literal of its value. -/
  | identities
      {rule : Rule}
      {op : Operator}
      {isIdentity : Formula → Bool}
      {x : Formula}
      {operands : List Formula} :
      Identity rule op isIdentity → x.operandsOf? op = some operands →
      (operands.filter fun operand => !isIdentity operand) = [] →
      Effect rule x (ofRat x.value)
  /-- A chain keeps one operand and becomes that. -/
  | remainder
      {rule : Rule}
      {op : Operator}
      {isIdentity : Formula → Bool}
      {x operand : Formula}
      {operands : List Formula} :
      Identity rule op isIdentity → x.operandsOf? op = some operands →
      (operands.filter fun operand => !isIdentity operand) = [operand] →
      Effect rule x operand
  /-- A chain loses its identity elements. -/
  | remainders
      {rule : Rule}
      {op : Operator}
      {isIdentity : Formula → Bool}
      {x : Formula}
      {operands : List Formula} :
      Identity rule op isIdentity → x.operandsOf? op = some operands →
      (operands.filter fun operand => !isIdentity operand).length ≠ operands.length →
      2 ≤ (operands.filter fun operand => !isIdentity operand).length →
      Effect rule x (ofValue op (operands.filter fun operand => !isIdentity operand) x.value)
  | subtractedZero {x left right : Formula} :
      x.pairOf? .sub = some (left, right) → right.isZero = true →
      Effect subtractiveIdentity x left
  | subtractedFromZero {x left right : Formula} :
      x.pairOf? .sub = some (left, right) → left.isZero = true →
      Effect subtractionFromZero x (mul (ofRat (-1)) right)
  | zeroFactor {x factor : Formula} {factors : List Formula} :
      x.operandsOf? .mul = some factors → factor ∈ factors → factor.isZero = true →
      Effect multiplicativeCollapse x (ofRat 0)
  /-- The first fraction of a product takes the other factors into its numerator. -/
  | absorbed
      {x quotient numerator denominator y : Formula}
      {before after : List Formula} :
      x.operandsOf? .mul = some (before ++ quotient :: after) →
      quotient.fraction? = some (numerator, denominator) →
      div (product (before ++ after ++ [numerator])) denominator = .ok y →
      Effect productAbsorbsFraction x y
  /-- A sign and the only other factor, a literal, become one literal. -/
  | folded
      {x sign : Formula}
      {before after : List Formula}
      {number : Rat}
      {other : Formula} :
      x.operandsOf? .mul = some (before ++ sign :: after) → sign.value = -1 →
      before ++ after = [other] → other.literalValue? = some number →
      Effect signCollapse x (ofRat (-number))
  /-- A sign moves into the first literal of the other factors. -/
  | moved
      {x sign other : Formula}
      {before after front back : List Formula}
      {number : Rat} :
      x.operandsOf? .mul = some (before ++ sign :: after) → sign.value = -1 →
      before ++ after = front ++ other :: back → other.literalValue? = some number →
      2 ≤ (front ++ ofRat (-number) :: back).length →
      Effect signCollapse x (ofValue .mul (front ++ ofRat (-number) :: back) x.value)
  | dividedByOne {x numerator denominator : Formula} :
      x.fraction? = some (numerator, denominator) → denominator.isOne = true →
      Effect divisionIdentity x numerator
  | dividedZero {x numerator denominator : Formula} :
      x.fraction? = some (numerator, denominator) → numerator.isZero = true →
      Effect divisionCollapse x (ofRat 0)
  | dividedByFraction {x numerator denominator above below y : Formula} :
      x.fraction? = some (numerator, denominator) →
      denominator.fraction? = some (above, below) →
      div (mul numerator below) above = .ok y →
      Effect denominatorIsFraction x y
  | dividedFraction {x numerator denominator above below y : Formula} :
      x.fraction? = some (numerator, denominator) →
      numerator.fraction? = some (above, below) →
      div above (mul below denominator) = .ok y →
      Effect numeratorIsFraction x y
  | exponentOne {x base exponent : Formula} :
      x.pairOf? .pow = some (base, exponent) → exponent.isOne = true →
      Effect powerIdentity x base
  | exponentZero {x base exponent : Formula} :
      x.pairOf? .pow = some (base, exponent) → exponent.isZero = true →
      Effect powerCollapse x (ofRat 1)
  | baseZero {x base exponent : Formula} :
      x.pairOf? .pow = some (base, exponent) → exponent.isZero = false → base.isZero = true →
      Effect powerCollapse x (ofRat 0)
  | baseOne {x base exponent : Formula} :
      x.pairOf? .pow = some (base, exponent) → base.isOne = true →
      Effect powerCollapse x (ofRat 1)

/-- Only chains have identity elements. -/
theorem Identity.isAssociative
    {rule : Rule}
    {op : Operator}
    {isIdentity : Formula → Bool}
    (identity : Identity rule op isIdentity) :
    op.isAssociative = true := by
  cases identity <;> rfl

/-- Dropping identity elements has one of three effects, by how many operands are left. -/
theorem effect_of_dropIdentities?
    {rule : Rule}
    {op : Operator}
    {isIdentity : Formula → Bool}
    {x y : Formula}
    (identity : Identity rule op isIdentity)
    (dropped : x.dropIdentities? op isIdentity = some y) :
    Effect rule x y := by
  simp only [dropIdentities?, Option.bind_eq_bind, Option.bind_eq_some_iff,
    Option.ite_none_left_eq_some] at dropped
  obtain ⟨operands, found, shorter, dropped⟩ := dropped
  split at dropped
  · rename_i nothing
    cases dropped
    exact .identities identity found nothing
  · rename_i single remaining
    cases dropped
    exact .remainder identity found remaining
  · rename_i several_ne_nil several_ne_single
    cases dropped
    refine .remainders identity found shorter ?_
    match remaining : operands.filter fun operand => !isIdentity operand with
    | [] => exact absurd remaining several_ne_nil
    | [single] => exact absurd remaining (several_ne_single single)
    | _ :: _ :: _ => simp

/-- Absorbing the other factors into a fraction has the effect of its rule. -/
theorem effect_of_absorbFraction?
    {x y : Formula}
    (absorbed : x.absorbFraction? = some y) :
    Effect productAbsorbsFraction x y := by
  simp only [absorbFraction?, Option.bind_eq_bind, Option.bind_eq_some_iff] at absorbed
  obtain ⟨factors, found, ⟨before, ⟨numerator, denominator⟩, after⟩, split, built⟩ := absorbed
  obtain ⟨_, quotient, isFraction, rfl⟩ := splitFirst?_eq_some split
  exact .absorbed found isFraction (toOption_eq_some built)

/-- Folding a sign into a literal has one of the two effects of its rule. -/
theorem effect_of_foldSign?
    {x y : Formula}
    (folded : x.foldSign? = some y) :
    Effect signCollapse x y := by
  simp only [foldSign?, Option.bind_eq_bind, Option.bind_eq_some_iff] at folded
  obtain ⟨factors, found, ⟨before, _, after⟩, split, ⟨front, number, back⟩, second, folded⟩ :=
    folded
  obtain ⟨_, sign, isSign, rfl⟩ := splitFirst?_eq_some split
  obtain ⟨_, other, isLiteral, others⟩ := splitFirst?_eq_some second
  dsimp only at others folded
  split at folded
  · rename_i single alone
    cases folded
    cases front with
    | nil =>
        simp only [List.nil_append, List.cons.injEq] at alone others
        obtain ⟨rfl, rfl⟩ := alone
        exact .folded found (value_of_minusOne? isSign) others isLiteral
    | cons first rest => simp at alone
  · rename_i several
    cases folded
    refine .moved found (value_of_minusOne? isSign) others isLiteral ?_
    match list : front ++ ofRat (-number) :: back with
    | [] => simp at list
    | [single] => exact absurd list (several single)
    | _ :: _ :: _ => simp

/-- What a rule gives is one of its effects. -/
theorem effect_of_apply
    {rule : Rule}
    {x y : Formula}
    (applied : rule.apply x = some y) :
    Effect rule x y := by
  cases rule with
  | additiveIdentity => exact effect_of_dropIdentities? .sum applied
  | multiplicativeIdentity => exact effect_of_dropIdentities? .product applied
  | productAbsorbsFraction => exact effect_of_absorbFraction? applied
  | signCollapse => exact effect_of_foldSign? applied
  | subtractiveIdentity =>
      simp only [apply, Option.bind_eq_bind, Option.bind_eq_some_iff,
        Option.ite_none_right_eq_some, Option.some.injEq] at applied
      obtain ⟨⟨left, right⟩, found, zero, rfl⟩ := applied
      exact .subtractedZero found zero
  | subtractionFromZero =>
      simp only [apply, Option.bind_eq_bind, Option.bind_eq_some_iff,
        Option.ite_none_right_eq_some, Option.some.injEq] at applied
      obtain ⟨⟨left, right⟩, found, zero, rfl⟩ := applied
      exact .subtractedFromZero found zero
  | multiplicativeCollapse =>
      simp only [apply, Option.bind_eq_bind, Option.bind_eq_some_iff,
        Option.ite_none_right_eq_some, Option.some.injEq, List.any_eq_true] at applied
      obtain ⟨factors, found, ⟨factor, member, zero⟩, rfl⟩ := applied
      exact .zeroFactor found member zero
  | divisionIdentity =>
      simp only [apply, Option.bind_eq_bind, Option.bind_eq_some_iff,
        Option.ite_none_right_eq_some, Option.some.injEq] at applied
      obtain ⟨⟨numerator, denominator⟩, found, one, rfl⟩ := applied
      exact .dividedByOne found one
  | divisionCollapse =>
      simp only [apply, Option.bind_eq_bind, Option.bind_eq_some_iff,
        Option.ite_none_right_eq_some, Option.some.injEq] at applied
      obtain ⟨⟨numerator, denominator⟩, found, zero, rfl⟩ := applied
      exact .dividedZero found zero
  | denominatorIsFraction =>
      simp only [apply, Option.bind_eq_bind, Option.bind_eq_some_iff] at applied
      obtain ⟨⟨numerator, denominator⟩, found, ⟨above, below⟩, divisor, built⟩ := applied
      exact .dividedByFraction found divisor (toOption_eq_some built)
  | numeratorIsFraction =>
      simp only [apply, Option.bind_eq_bind, Option.bind_eq_some_iff] at applied
      obtain ⟨⟨numerator, denominator⟩, found, ⟨above, below⟩, dividend, built⟩ := applied
      exact .dividedFraction found dividend (toOption_eq_some built)
  | powerIdentity =>
      simp only [apply, Option.bind_eq_bind, Option.bind_eq_some_iff,
        Option.ite_none_right_eq_some, Option.some.injEq] at applied
      obtain ⟨⟨base, exponent⟩, found, one, rfl⟩ := applied
      exact .exponentOne found one
  | powerCollapse =>
      simp only [apply, Option.bind_eq_bind, Option.bind_eq_some_iff] at applied
      obtain ⟨⟨base, exponent⟩, found, collapsed⟩ := applied
      dsimp only at collapsed
      by_cases zeroAbove : exponent.isZero = true
      · rw [if_pos zeroAbove] at collapsed
        cases collapsed
        exact .exponentZero found zeroAbove
      · rw [if_neg zeroAbove] at collapsed
        by_cases zeroBelow : base.isZero = true
        · rw [if_pos zeroBelow] at collapsed
          cases collapsed
          exact .baseZero found (by simpa using zeroAbove) zeroBelow
        · rw [if_neg zeroBelow] at collapsed
          obtain ⟨oneBelow, collapsed⟩ := Option.ite_none_right_eq_some.mp collapsed
          cases collapsed
          exact .baseOne found oneBelow

end Rule
end ExactFormula
