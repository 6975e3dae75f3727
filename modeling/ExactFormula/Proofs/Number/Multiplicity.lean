import ExactFormula.Number.Multiplicity
import Mathlib.Tactic.Ring

/-!
# Taking out a factor

A base is taken out of a number until it does not divide what is left.  This gives the
same as taking it out one at a time.
-/

namespace ExactFormula
namespace Multiplicity

/-- The parts make up the number. -/
theorem pow_count_mul_rest_upTo (base level n : Nat) :
    base ^ (upTo base level n).count * (upTo base level n).rest = n := by
  fun_induction upTo base level n with
  | case1 n divisible =>
      rw [pow_one]
      exact Nat.mul_div_cancel' (Nat.dvd_of_mod_eq_zero divisible)
  | case2 n indivisible => rw [pow_zero, one_mul]
  | case3 level n power divisible inner inductionHypothesis =>
      rw [pow_add, Nat.mul_right_comm, inductionHypothesis, Nat.mul_comm]
      exact Nat.mul_div_cancel' (Nat.dvd_of_mod_eq_zero divisible)
  | case4 level n power indivisible inductionHypothesis => exact inductionHypothesis

/-- Nothing is left of a base whose multiplicity is within reach. -/
theorem not_dvd_rest_upTo
    {base level n : Nat}
    (reached : ¬base ^ 2 ^ (level + 1) ∣ n) :
    ¬base ∣ (upTo base level n).rest := by
  fun_induction upTo base level n with
  | case1 n divisible =>
      intro again
      refine reached ?_
      rw [← Nat.mul_div_cancel' (Nat.dvd_of_mod_eq_zero divisible), Nat.zero_add, pow_one, pow_two]
      exact Nat.mul_dvd_mul_left base again
  | case2 n indivisible => exact fun divides => indivisible (Nat.mod_eq_zero_of_dvd divides)
  | case3 level n power divisible inner inductionHypothesis =>
      refine inductionHypothesis fun again => reached ?_
      rw [← Nat.mul_div_cancel' (Nat.dvd_of_mod_eq_zero divisible), pow_succ 2 (level + 1), pow_mul,
        pow_two]
      exact Nat.mul_dvd_mul_left power again
  | case4 level n power indivisible inductionHypothesis =>
      exact inductionHypothesis fun divides => indivisible (Nat.mod_eq_zero_of_dvd divides)

variable {base n rest : Nat} {state last other : Multiplicity}

theorem pow_count_mul_rest (base n : Nat) : base ^ (of base n).count * (of base n).rest = n :=
  pow_count_mul_rest_upTo base _ n

/-- The base is taken out of a positive number as often as it divides it. -/
theorem not_dvd_rest (two_le : 2 ≤ base) (positive : 0 < n) : ¬base ∣ (of base n).rest := by
  refine not_dvd_rest_upTo fun divides => ?_
  have small : n < base ^ 2 ^ (Nat.log2 (Nat.log2 n + 1) + 1) :=
    calc
      n < 2 ^ (Nat.log2 n + 1) := Nat.lt_log2_self
      _ ≤ 2 ^ 2 ^ (Nat.log2 (Nat.log2 n + 1) + 1) :=
        Nat.pow_le_pow_right (by decide) (Nat.le_of_lt Nat.lt_log2_self)
      _ ≤ base ^ 2 ^ (Nat.log2 (Nat.log2 n + 1) + 1) := Nat.pow_le_pow_left two_le _
  exact Nat.not_lt_of_le (Nat.le_of_dvd positive divides) small

theorem rest_pos (base : Nat) (positive : 0 < n) : 0 < (of base n).rest := by
  refine Nat.pos_of_ne_zero fun zero => ?_
  rw [← pow_count_mul_rest base n, zero, mul_zero] at positive
  exact Nat.lt_irrefl 0 positive

/-! ## One at a time -/

/--
The base is taken out of what is left, and counted, again and again until it does
not divide it any more.  This leads from the first state to the second.
-/
inductive TakesOut (base : Nat) : Multiplicity → Multiplicity → Prop
  /-- The base does not divide what is left. -/
  | stop {state : Multiplicity} : ¬base ∣ state.rest → TakesOut base state state
  /-- The base divides what is left. -/
  | again
      {state last : Multiplicity} :
      base ∣ state.rest → TakesOut base ⟨state.count + 1, state.rest / base⟩ last →
      TakesOut base state last

theorem TakesOut.unique
    (one : TakesOut base state last)
    (another : TakesOut base state other) :
    last = other := by
  induction one with
  | stop indivisible =>
      cases another with
      | stop _ => rfl
      | again divisible _ => exact absurd divisible indivisible
  | again divisible _ inductionHypothesis =>
      cases another with
      | stop indivisible => exact absurd divisible indivisible
      | again _ rounds => exact inductionHypothesis rounds

/-- As often as the base is a factor, there is another round. -/
theorem takesOut_pow_mul
    (positive : 0 < base)
    (indivisible : ¬base ∣ rest)
    (count done : Nat) :
    TakesOut base ⟨done, base ^ count * rest⟩ ⟨done + count, rest⟩ := by
  induction count generalizing done with
  | zero =>
      rw [pow_zero, one_mul]
      exact .stop indivisible
  | succ count inductionHypothesis =>
      have power : base ^ (count + 1) * rest = base * (base ^ count * rest) := by ring
      refine .again (Dvd.intro _ power.symm) ?_
      rw [power, Nat.mul_div_cancel_left _ positive, Nat.add_comm count, ← Nat.add_assoc]
      exact inductionHypothesis (done + 1)

/-- Taking a base out one at a time comes to an end, and gives its multiplicity. -/
theorem takesOut_iff (two_le : 2 ≤ base) (positive : 0 < n) :
    TakesOut base ⟨0, n⟩ last ↔ last = of base n := by
  have rounds := takesOut_pow_mul (Nat.zero_lt_of_lt two_le)
    (not_dvd_rest two_le positive) (of base n).count 0
  rw [pow_count_mul_rest, Nat.zero_add] at rounds
  constructor
  · exact fun other => other.unique rounds
  · rintro rfl
    exact rounds

end Multiplicity
end ExactFormula
