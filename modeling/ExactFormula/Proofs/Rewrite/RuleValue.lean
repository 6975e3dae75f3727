import ExactFormula.Proofs.Formula.Coherence
import ExactFormula.Rewrite.Effect
import Mathlib.Tactic.FieldSimp
import Mathlib.Tactic.LinearCombination

/-!
# Rules and values

A rule that is applied to a coherent formula gives a coherent formula, and with
one exception the value stays.  The exception is a power of the constant zero
whose exponent has the value zero without being a literal or a constant: it has
the value one and is replaced by zero.
-/

namespace ExactFormula

namespace Number

theorem power_zero (x : Rat) : power x 0 = .ok 1 := by
  rw [power, if_pos (Or.inl rfl)]

theorem one_power (y : Rat) : power 1 y = .ok 1 := by
  rw [power, if_pos (Or.inr rfl)]

theorem power_one (x : Rat) : power x 1 = .ok x := by
  by_cases one : x = 1
  · rw [one, one_power]
  · by_cases zero : x = 0
    · simp [power, zero]
    · simp [power, one, zero, largestExponent]

/-- Zero has no power but zero, unless the exponent is zero. -/
theorem zero_power_eq_ok {y value : Rat} (nonzero : y ≠ 0) (evaluated : power 0 y = .ok value) :
    value = 0 := by
  by_cases negative : y < 0
  · simp [power, nonzero, negative] at evaluated
  · simp [power, nonzero, negative] at evaluated
    exact evaluated.symm

end Number

namespace Formula

/-- The value of a leaf is that of the formula. -/
theorem value_of_constantValue? {x : Formula} {value : Rat} (found : x.constantValue? = some value) :
    x.value = value := by
  cases x with
  | literal id held => exact Option.some.inj found
  | constant id name held => exact Option.some.inj found
  | output id name inner => simp [constantValue?] at found
  | derived id op operands held => simp [constantValue?] at found

theorem value_of_isZero {x : Formula} (zero : x.isZero = true) : x.value = 0 :=
  value_of_constantValue? (of_decide_eq_true zero)

theorem value_of_isOne {x : Formula} (one : x.isOne = true) : x.value = 1 :=
  value_of_constantValue? (of_decide_eq_true one)

/-- A product that is built one factor at a time has the value of the whole product. -/
theorem value_foldl_mul (rest : List Formula) (first : Formula) :
    (rest.foldl mul first).value = first.value * Operator.mul.total (rest.map value) := by
  induction rest generalizing first with
  | nil => exact (mul_one first.value).symm
  | cons x rest inductionHypothesis =>
      rw [List.foldl_cons, inductionHypothesis, List.map_cons, Operator.total_cons,
        Operator.join_mul, ← mul_assoc]
      rfl

theorem value_product (factors : List Formula) :
    (product factors).value = Operator.mul.total (factors.map value) := by
  cases factors with
  | nil => rfl
  | cons first rest => exact value_foldl_mul rest first

/-! ## What happens to operands -/

section Operands

variable {property : Formula → Prop} {before after : List Formula}

/-- One operand gives way to another. -/
theorem forall_mem_replaced
    {x y : Formula}
    (inside : ∀ operand ∈ before ++ x :: after, property operand)
    (replaced : property x → property y) :
    ∀ operand ∈ before ++ y :: after, property operand := by
  intro operand member
  rw [List.mem_append, List.mem_cons] at member
  obtain first | rfl | last := member
  · exact inside operand (by simp [first])
  · exact replaced (inside x (by simp))
  · exact inside operand (by simp [last])

/-- A factor is taken out, and a part of it comes in at the end. -/
theorem forall_mem_absorbed
    {quotient numerator : Formula}
    (inside : ∀ factor ∈ before ++ quotient :: after, property factor)
    (above : property numerator) :
    ∀ factor ∈ before ++ after ++ [numerator], property factor := by
  intro factor member
  simp only [List.mem_append, List.mem_singleton] at member
  obtain (first | last) | rfl := member
  · exact inside factor (by simp [first])
  · exact inside factor (by simp [last])
  · exact above

/-- A factor is taken out, and another one of those that are left is replaced. -/
theorem forall_mem_moved
    {sign other literal : Formula}
    {front back : List Formula}
    (inside : ∀ factor ∈ before ++ sign :: after, property factor)
    (others : before ++ after = front ++ other :: back)
    (replaced : property literal) :
    ∀ factor ∈ front ++ literal :: back, property factor := by
  have kept : ∀ factor ∈ front ++ other :: back, property factor := by
    intro factor member
    rw [← others, List.mem_append] at member
    obtain first | last := member
    · exact inside factor (by simp [first])
    · exact inside factor (by simp [last])
  exact forall_mem_replaced kept fun _ => replaced

end Operands

/-! ## What a rule finds in a coherent formula -/

/-- A coherent chain has the total of its operands as its value. -/
theorem Coherent.of_operandsOf?
    {x : Formula}
    (coherent : Coherent x)
    {op : Operator}
    (associative : op.isAssociative = true)
    {operands : List Formula}
    (found : x.operandsOf? op = some operands) :
    2 ≤ operands.length ∧ op.total (operands.map value) = x.value ∧
      ∀ operand ∈ operands, Coherent operand := by
  obtain ⟨_, id, value, rfl⟩ := operandsOf?_eq_some found
  obtain ⟨evaluated, inside⟩ := coherent_derived_iff.mp coherent
  obtain ⟨long, total⟩ := (Operator.apply_eq_ok_iff associative).mp evaluated
  rw [List.length_map] at long
  exact ⟨long, total, inside⟩

/-- A coherent node of two operands has the value that its operator gives at theirs. -/
theorem Coherent.of_pairOf?
    {x : Formula}
    (coherent : Coherent x)
    {op : Operator}
    {left right : Formula}
    (found : x.pairOf? op = some (left, right)) :
    op.apply [left.value, right.value] = .ok x.value ∧ Coherent left ∧ Coherent right := by
  have operands := Everywhere.of_pairOf? coherent found
  obtain ⟨id, value, rfl⟩ := pairOf?_eq_some found
  exact ⟨(coherent_derived_iff.mp coherent).1, operands⟩

/-- A coherent quotient has a divisor that is not zero. -/
theorem Coherent.of_fraction?
    {x : Formula}
    (coherent : Coherent x)
    {numerator denominator : Formula}
    (found : x.fraction? = some (numerator, denominator)) :
    (denominator.value ≠ 0 ∧ numerator.value / denominator.value = x.value) ∧
      Coherent numerator ∧ Coherent denominator := by
  obtain ⟨evaluated, operands⟩ := coherent.of_pairOf? found
  exact ⟨Operator.apply_div_eq_ok_iff.mp evaluated, operands⟩

/-! ## Chains -/

/-- Leaving out neutral operands does not change the total. -/
theorem total_filter
    {op : Operator}
    {isIdentity : Formula → Bool}
    (neutral : ∀ x, isIdentity x = true → x.value = op.neutral)
    (operands : List Formula) :
    op.total ((operands.filter fun operand => !isIdentity operand).map value) =
      op.total (operands.map value) := by
  induction operands with
  | nil => rfl
  | cons x rest inductionHypothesis =>
      rw [List.map_cons, Operator.total_cons]
      cases identity : isIdentity x with
      | true =>
          rw [List.filter_cons_of_neg (by simp [identity]), inductionHypothesis,
            neutral x identity, Operator.neutral_join]
      | false =>
          rw [List.filter_cons_of_pos (by simp [identity]), List.map_cons, Operator.total_cons,
            inductionHypothesis]

/-- A chain without its identity elements is coherent with the value that it had. -/
theorem coherent_remainders
    {op : Operator}
    (associative : op.isAssociative = true)
    {isIdentity : Formula → Bool}
    (neutral : ∀ x, isIdentity x = true → x.value = op.neutral)
    {x : Formula}
    (coherent : Coherent x)
    {operands : List Formula}
    (found : x.operandsOf? op = some operands)
    (several : 2 ≤ (operands.filter fun operand => !isIdentity operand).length) :
    Coherent (ofValue op (operands.filter fun operand => !isIdentity operand) x.value) := by
  obtain ⟨_, total, inside⟩ := coherent.of_operandsOf? associative found
  refine coherent_ofValue (fun operand member => inside operand (List.mem_of_mem_filter member)) ?_
  rw [Operator.apply_eq_ok_iff associative, List.length_map, total_filter neutral operands]
  exact ⟨several, total⟩

/-- A product and the fraction that absorbs its other factors have one value. -/
theorem absorbed_sound
    {x quotient numerator denominator y : Formula}
    {before after : List Formula}
    (coherent : Coherent x)
    (found : x.operandsOf? .mul = some (before ++ quotient :: after))
    (isFraction : quotient.fraction? = some (numerator, denominator))
    (built : div (product (before ++ after ++ [numerator])) denominator = .ok y) :
    Coherent y ∧ y.value = x.value := by
  obtain ⟨_, total, inside⟩ := coherent.of_operandsOf? rfl found
  obtain ⟨⟨_, quotient_eq⟩, above, below⟩ := (inside quotient (by simp)).of_fraction? isFraction
  have others := forall_mem_absorbed inside above
  refine ⟨coherent_of_div_eq_ok (coherent_product others) below built, ?_⟩
  obtain ⟨_, rfl⟩ := div_eq_ok_iff.mp built
  have product_eq : (product (before ++ after ++ [numerator])).value =
      Operator.mul.total (before.map value) *
        (Operator.mul.total (after.map value) * numerator.value) := by
    rw [value_product, List.append_assoc, List.map_append, List.map_append,
      Operator.total_append, Operator.total_append, Operator.join_mul, Operator.join_mul]
    exact congrArg₂ _ rfl (congrArg₂ _ rfl (mul_one numerator.value))
  calc
    (product (before ++ after ++ [numerator])).value / denominator.value
        = Operator.mul.total (before.map value) *
            (numerator.value / denominator.value * Operator.mul.total (after.map value)) := by
          rw [product_eq]
          ring
    _ = Operator.mul.total ((before ++ quotient :: after).map value) := by
          rw [quotient_eq, List.map_append, List.map_cons, Operator.total_append,
            Operator.total_cons, Operator.join_mul, Operator.join_mul]
    _ = x.value := total

/-- A factor of minus one may be left out if a literal among the other factors changes its sign. -/
theorem moved_sound
    {x sign other : Formula}
    {before after front back : List Formula}
    {number : Rat}
    (coherent : Coherent x)
    (found : x.operandsOf? .mul = some (before ++ sign :: after))
    (minusOne : sign.value = -1)
    (others : before ++ after = front ++ other :: back)
    (isLiteral : other.literalValue? = some number) :
    Operator.mul.total ((front ++ ofRat (-number) :: back).map value) = x.value ∧
      ∀ factor ∈ front ++ ofRat (-number) :: back, Coherent factor := by
  obtain ⟨_, total, inside⟩ := coherent.of_operandsOf? rfl found
  constructor
  · have joined := congrArg (fun list => Operator.mul.total (list.map value)) others
    simp only [List.map_append, List.map_cons, Operator.total_append, Operator.total_cons,
      Operator.join_mul, value_of_literalValue? isLiteral] at joined
    rw [← total]
    simp only [List.map_append, List.map_cons, Operator.total_append, Operator.total_cons,
      Operator.join_mul, minusOne]
    change Operator.mul.total (front.map value) *
        (-number * Operator.mul.total (back.map value)) = _
    linear_combination joined
  · exact forall_mem_moved inside others (coherent_literal none (-number))

/-! ## Quotients -/

/-- Dividing by a fraction is multiplying by the fraction turned over. -/
theorem divideByFraction_sound
    {x numerator denominator above below y : Formula}
    (coherent : Coherent x)
    (isFraction : x.fraction? = some (numerator, denominator))
    (divisor : denominator.fraction? = some (above, below))
    (built : div (mul numerator below) above = .ok y) :
    Coherent y ∧ y.value = x.value := by
  obtain ⟨⟨_, quotient⟩, left, right⟩ := coherent.of_fraction? isFraction
  obtain ⟨⟨_, inner⟩, top, bottom⟩ := right.of_fraction? divisor
  refine ⟨coherent_of_div_eq_ok (coherent_mul left bottom) top built, ?_⟩
  obtain ⟨_, rfl⟩ := div_eq_ok_iff.mp built
  calc
    numerator.value * below.value / above.value
        = numerator.value / (above.value / below.value) := (div_div_eq_mul_div ..).symm
    _ = x.value := by rw [inner, quotient]

/-- Dividing a fraction is multiplying its denominator. -/
theorem divideFraction_sound
    {x numerator denominator above below y : Formula}
    (coherent : Coherent x)
    (isFraction : x.fraction? = some (numerator, denominator))
    (dividend : numerator.fraction? = some (above, below))
    (built : div above (mul below denominator) = .ok y) :
    Coherent y ∧ y.value = x.value := by
  obtain ⟨⟨_, quotient⟩, left, right⟩ := coherent.of_fraction? isFraction
  obtain ⟨⟨_, inner⟩, top, bottom⟩ := left.of_fraction? dividend
  refine ⟨coherent_of_div_eq_ok top (coherent_mul bottom right) built, ?_⟩
  obtain ⟨_, rfl⟩ := div_eq_ok_iff.mp built
  calc
    above.value / (below.value * denominator.value)
        = above.value / below.value / denominator.value := (div_div ..).symm
    _ = x.value := by rw [inner, quotient]

/-! ## Powers -/

/-- A coherent power has the value of its base to its exponent. -/
theorem Coherent.of_power
    {x base exponent : Formula}
    (coherent : Coherent x)
    (isPower : x.pairOf? .pow = some (base, exponent)) :
    Number.power base.value exponent.value = .ok x.value :=
  Operator.apply_pow_eq_ok_iff.mp (coherent.of_pairOf? isPower).1

end Formula

namespace Rule

open Formula

/--
The rule collapses a power of the constant zero to zero, although the exponent,
which is no constant itself, has the value zero.
-/
def DropsZeroPower (rule : Rule) (x : Formula) : Prop :=
  rule = powerCollapse ∧
    ∃ base exponent,
      x.pairOf? .pow = some (base, exponent) ∧
        base.isZero = true ∧ exponent.isZero = false ∧ exponent.value = 0

/-- A dropped zero power had the value one, and zero stands in its place. -/
theorem apply_of_dropsZeroPower
    {rule : Rule}
    {x y : Formula}
    (coherent : Coherent x)
    (drops : rule.DropsZeroPower x)
    (applied : rule.apply x = some y) :
    y = ofRat 0 ∧ x.value = 1 := by
  obtain ⟨rfl, base, exponent, isPower, baseZero, exponentNonzero, zero⟩ := drops
  have evaluated := coherent.of_power isPower
  rw [zero, Number.power_zero, Except.ok.injEq] at evaluated
  simp [apply, isPower, baseZero, exponentNonzero] at applied
  exact ⟨applied.symm, evaluated.symm⟩

/-- An identity element has the neutral value of its operator. -/
theorem Identity.neutral
    {rule : Rule}
    {op : Operator}
    {isIdentity : Formula → Bool}
    (identity : Identity rule op isIdentity)
    (x : Formula)
    (isNeutral : isIdentity x = true) :
    x.value = op.neutral := by
  cases identity with
  | sum => exact value_of_isZero isNeutral
  | product => exact value_of_isOne isNeutral

/-- A rule that drops no zero power keeps the value and the coherence of a formula. -/
theorem Effect.sound
    {rule : Rule}
    {x y : Formula}
    (effect : Effect rule x y)
    (coherent : Coherent x)
    (kept : ¬rule.DropsZeroPower x) :
    Coherent y ∧ y.value = x.value := by
  cases effect with
  | identities => exact ⟨coherent_literal none x.value, rfl⟩
  | @remainder _ op _ _ _ operands identity found remaining =>
      obtain ⟨_, total, inside⟩ := coherent.of_operandsOf? identity.isAssociative found
      have same := total_filter identity.neutral operands
      have member := List.mem_of_mem_filter (remaining.symm ▸ List.mem_singleton_self y)
      rw [remaining, total] at same
      exact ⟨inside y member, (op.join_neutral y.value).symm.trans same⟩
  | remainders identity found _ several =>
      exact ⟨coherent_remainders identity.isAssociative identity.neutral coherent found several, rfl⟩
  | subtractedZero found zero =>
      obtain ⟨evaluated, first, _⟩ := coherent.of_pairOf? found
      rw [Operator.apply_sub, Except.ok.injEq, value_of_isZero zero, sub_zero] at evaluated
      exact ⟨first, evaluated⟩
  | subtractedFromZero found zero =>
      obtain ⟨evaluated, _, second⟩ := coherent.of_pairOf? found
      rw [Operator.apply_sub, Except.ok.injEq, value_of_isZero zero, zero_sub] at evaluated
      exact ⟨coherent_mul (coherent_literal none (-1)) second, (neg_one_mul _).trans evaluated⟩
  | zeroFactor found member zero =>
      obtain ⟨_, total, _⟩ := coherent.of_operandsOf? rfl found
      refine ⟨coherent_literal none 0, ?_⟩
      rw [← total]
      exact (Operator.total_mul_eq_zero (value_of_isZero zero ▸ List.mem_map_of_mem member)).symm
  | absorbed found isFraction built => exact absorbed_sound coherent found isFraction built
  | @folded _ _ before after number other found minusOne others isLiteral =>
      have alone : before ++ after = [] ++ other :: [] := others
      obtain ⟨total, inside⟩ := moved_sound coherent found minusOne alone isLiteral
      exact ⟨inside _ (by simp), (mul_one _).symm.trans total⟩
  | moved found minusOne others isLiteral several =>
      obtain ⟨total, inside⟩ := moved_sound coherent found minusOne others isLiteral
      refine ⟨coherent_ofValue inside ((Operator.apply_eq_ok_iff rfl).mpr ⟨?_, total⟩), rfl⟩
      rw [List.length_map]
      exact several
  | dividedByOne found one =>
      obtain ⟨⟨_, quotient⟩, above, _⟩ := coherent.of_fraction? found
      rw [value_of_isOne one, div_one] at quotient
      exact ⟨above, quotient⟩
  | dividedZero found zero =>
      obtain ⟨⟨_, quotient⟩, _⟩ := coherent.of_fraction? found
      rw [value_of_isZero zero, zero_div] at quotient
      exact ⟨coherent_literal none 0, quotient⟩
  | dividedByFraction found divisor built => exact divideByFraction_sound coherent found divisor built
  | dividedFraction found dividend built => exact divideFraction_sound coherent found dividend built
  | exponentOne found one =>
      have evaluated := coherent.of_power found
      rw [value_of_isOne one, Number.power_one, Except.ok.injEq] at evaluated
      exact ⟨(coherent.of_pairOf? found).2.1, evaluated⟩
  | exponentZero found zero =>
      have evaluated := coherent.of_power found
      rw [value_of_isZero zero, Number.power_zero, Except.ok.injEq] at evaluated
      exact ⟨coherent_literal none 1, evaluated⟩
  | @baseZero _ base exponent found exponentNonzero zero =>
      have nonzero : exponent.value ≠ 0 := by
        intro exponent_eq
        exact kept ⟨rfl, base, exponent, found, zero, exponentNonzero, exponent_eq⟩
      have evaluated := coherent.of_power found
      rw [value_of_isZero zero] at evaluated
      exact ⟨coherent_literal none 0, (Number.zero_power_eq_ok nonzero evaluated).symm⟩
  | baseOne found one =>
      have evaluated := coherent.of_power found
      rw [value_of_isOne one, Number.one_power, Except.ok.injEq] at evaluated
      exact ⟨coherent_literal none 1, evaluated⟩

/-- A rule that drops no power of zero by zero keeps coherence and the value. -/
theorem apply_sound
    {rule : Rule}
    {x y : Formula}
    (coherent : Coherent x)
    (kept : ¬rule.DropsZeroPower x)
    (applied : rule.apply x = some y) :
    Coherent y ∧ y.value = x.value :=
  (effect_of_apply applied).sound coherent kept

/-- A rule keeps the value of a coherent formula exactly when it drops no zero power. -/
theorem value_apply_iff
    {rule : Rule}
    {x y : Formula}
    (coherent : Coherent x)
    (applied : rule.apply x = some y) :
    y.value = x.value ↔ ¬rule.DropsZeroPower x := by
  constructor
  · intro same drops
    obtain ⟨rfl, one⟩ := apply_of_dropsZeroPower coherent drops applied
    rw [one] at same
    exact absurd same (by decide)
  · intro kept
    exact (apply_sound coherent kept applied).2

end Rule
end ExactFormula
