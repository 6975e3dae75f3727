import ExactFormula.Proofs.Formula.Coherence
import Mathlib.Data.List.Forall2
import Mathlib.Data.Rat.Floor

/-!
# Evaluation

What a formula means, read from its operators alone and not from the values that
its nodes store: an operator relates the values of its operands to a value, and a
formula evaluates to what the operators relate from the leaves up.  Whatever the
constructors build evaluates to the value that it stores, and to no other.  They
fail where a divisor is zero and where a power has no value, and nowhere else.
-/

namespace ExactFormula

/-- The corrected quotient is the one that is rounded down. -/
theorem Number.floor_eq (x : Rat) : Number.floor x = ⌊x⌋ := by
  have negative : x < 0 ↔ ¬0 ≤ x.num := by rw [← Rat.num_neg, not_le]
  have whole : x.num.tmod x.den = 0 ↔ (x.den : Int) ∣ x.num := Int.dvd_iff_tmod_eq_zero.symm
  have sign : (x.den : Int).sign = 1 := Int.sign_eq_one_of_pos (by exact_mod_cast x.den_pos)
  rw [Rat.floor_def', Number.floor, Int.tdiv_eq_ediv, sign]
  simp only [ne_eq, whole, negative]
  by_cases exact : (x.den : Int) ∣ x.num
  · simp [exact]
  · by_cases positive : 0 ≤ x.num
    · simp [positive]
    · simp [positive, exact]

/-- The greatest integer that is at most a number. -/
theorem Number.isGreatest_floor (x : Rat) :
    IsGreatest {n : Int | (n : Rat) ≤ x} (Number.floor x) := by
  rw [Number.floor_eq]
  exact Int.gc_coe_floor.isGreatest_u

namespace Operator

/-! ## The meaning of the operators -/

/-- An operator has a value at the values of its operands. -/
inductive Means : Operator → List Rat → Rat → Prop
  /-- The sum of all operands. -/
  | add (values : List Rat) : Means add values values.sum
  /-- The exact difference. -/
  | sub (x y : Rat) : Means sub [x, y] (x - y)
  /-- The product of all operands. -/
  | mul (values : List Rat) : Means mul values values.prod
  /-- The exact quotient, unless the divisor is zero. -/
  | div (x : Rat) {y : Rat} : y ≠ 0 → Means div [x, y] (x / y)
  /-- The greatest integer that is at most the operand. -/
  | floor {x : Rat} {n : Int} : IsGreatest {m : Int | (m : Rat) ≤ x} n → Means floor [x] n
  /-- The power, where there is one. -/
  | pow {x y value : Rat} : Number.power x y = .ok value → Means pow [x, y] value

/-- An operator has no value at the values of its operands, for a cause. -/
inductive FailsAt : Operator → List Rat → Failure → Prop
  /-- The divisor is zero. -/
  | div (x : Rat) {y : Rat} : y = 0 → FailsAt div [x, y] .divisionByZero
  /-- There is no power. -/
  | pow {x y : Rat} {cause : Failure} : Number.power x y = .error cause → FailsAt pow [x, y] cause

section

variable {op : Operator} {values : List Rat}

/-- An operator with exactly two operands accepts pairs alone. -/
theorem exists_pair_of_accepts
    (binary : op.arity = .exactly 2)
    (accepted : op.arity.accepts values.length = true) :
    ∃ x y, values = [x, y] := by
  rw [binary, Arity.accepts, decide_eq_true_iff] at accepted
  exact List.length_eq_two.mp accepted

/-- At as many operands as a chain takes, it has a value. -/
theorem apply_eq_total
    (associative : op.isAssociative = true)
    (accepted : op.arity.accepts values.length = true) :
    op.apply values = .ok (op.total values) :=
  (apply_eq_ok_iff associative).mpr ⟨(accepts_iff_two_le associative).mp accepted, rfl⟩

/-- At as many operands as an operator takes, applying it gives what it means. -/
theorem apply_eq_ok_iff_means
    (accepted : op.arity.accepts values.length = true)
    {value : Rat} :
    op.apply values = .ok value ↔ op.Means values value := by
  cases op with
  | add =>
      rw [apply_eq_total rfl accepted, Except.ok.injEq]
      exact ⟨fun total => total ▸ .add values, fun | .add _ => rfl⟩
  | mul =>
      rw [apply_eq_total rfl accepted, Except.ok.injEq]
      exact ⟨fun total => total ▸ .mul values, fun | .mul _ => rfl⟩
  | sub =>
      obtain ⟨x, y, rfl⟩ := exists_pair_of_accepts rfl accepted
      rw [apply_sub, Except.ok.injEq]
      exact ⟨fun difference => difference ▸ .sub x y, fun | .sub _ _ => rfl⟩
  | div =>
      obtain ⟨x, y, rfl⟩ := exists_pair_of_accepts rfl accepted
      rw [apply_div_eq_ok_iff]
      exact ⟨fun ⟨nonzero, quotient⟩ => quotient ▸ .div x nonzero, fun | .div _ h => ⟨h, rfl⟩⟩
  | pow =>
      obtain ⟨x, y, rfl⟩ := exists_pair_of_accepts rfl accepted
      rw [apply_pow_eq_ok_iff]
      exact ⟨.pow, fun | .pow power => power⟩
  | floor =>
      obtain ⟨x, rfl⟩ := List.length_eq_one_iff.mp (of_decide_eq_true accepted)
      rw [apply, Except.ok.injEq]
      constructor
      · rintro rfl
        exact .floor (Number.isGreatest_floor x)
      · rintro ⟨⟩
        rename_i n greatest
        rw [(Number.isGreatest_floor x).unique greatest]

/-- At as many operands as an operator takes, applying it fails where it means nothing. -/
theorem apply_eq_error_iff
    (accepted : op.arity.accepts values.length = true)
    {refusal : Refusal} :
    op.apply values = .error refusal ↔
      ∃ cause, op.FailsAt values cause ∧ refusal = .failure cause := by
  cases op with
  | add | mul =>
      rw [apply_eq_total rfl accepted]
      exact ⟨nofun, nofun⟩
  | sub =>
      obtain ⟨x, y, rfl⟩ := exists_pair_of_accepts rfl accepted
      exact ⟨nofun, nofun⟩
  | floor =>
      obtain ⟨x, rfl⟩ := List.length_eq_one_iff.mp (of_decide_eq_true accepted)
      exact ⟨nofun, nofun⟩
  | div =>
      obtain ⟨x, y, rfl⟩ := exists_pair_of_accepts rfl accepted
      rw [apply, Number.divide]
      constructor
      · intro failed
        split at failed
        · rename_i zero
          exact ⟨.divisionByZero, .div x zero, (Except.error.inj failed).symm⟩
        · cases failed
      · rintro ⟨_, ⟨_, zero⟩, rfl⟩
        rw [if_pos zero, Except.mapError]
  | pow =>
      obtain ⟨x, y, rfl⟩ := exists_pair_of_accepts rfl accepted
      rw [apply]
      constructor
      · intro failed
        cases power : Number.power x y with
        | ok value => simp [power, Except.mapError] at failed
        | error cause =>
            rw [power] at failed
            exact ⟨cause, .pow power, (Except.error.inj failed).symm⟩
      · rintro ⟨_, power, rfl⟩
        cases power with
        | pow power => rw [power, Except.mapError]

end

end Operator

namespace Formula

/-! ## The meaning of formulas -/

/-- A formula evaluates to a value; the values that its derived nodes store are not looked at. -/
inductive Evaluates : Formula → Rat → Prop
  /-- A number evaluates to itself. -/
  | literal (id : Option NodeId) (value : Rat) : Evaluates (literal id value) value
  /-- A name plays no part. -/
  | constant (id : Option NodeId) (name : String) (value : Rat) :
      Evaluates (constant id name value) value
  /-- An output evaluates to what the formula under it does. -/
  | output (id : Option NodeId) (name : String) {inner : Formula} {value : Rat} :
      Evaluates inner value → Evaluates (output id name inner) value
  /-- A derived formula evaluates to what its operator makes of its operands. -/
  | derived
      (id : Option NodeId)
      {op : Operator}
      {operands : List Formula}
      (stored : Rat)
      {values : List Rat}
      {value : Rat} :
      List.Forall₂ Evaluates operands values → op.Means values value →
        Evaluates (derived id op operands stored) value

section

variable {id : Option NodeId} {stored value : Rat}

theorem evaluates_literal_iff : Evaluates (literal id stored) value ↔ value = stored := by
  constructor
  · rintro ⟨⟩
    rfl
  · rintro rfl
    exact .literal id value

theorem evaluates_constant_iff {name : String} :
    Evaluates (constant id name stored) value ↔ value = stored := by
  constructor
  · rintro ⟨⟩
    rfl
  · rintro rfl
    exact .constant id name value

theorem evaluates_output_iff {name : String} {inner : Formula} :
    Evaluates (output id name inner) value ↔ Evaluates inner value := by
  constructor
  · rintro ⟨⟩
    assumption
  · exact .output id name

/-- A node evaluates to what its operator means for the values of its operands. -/
theorem evaluates_derived_iff {op : Operator} {operands : List Formula} :
    Evaluates (derived id op operands stored) value ↔
      ∃ values, List.Forall₂ Evaluates operands values ∧ op.Means values value := by
  constructor
  · rintro ⟨⟩
    rename_i values inside means
    exact ⟨values, inside, means⟩
  · rintro ⟨values, inside, means⟩
    exact .derived id stored inside means

end

mutual

/-- A coherent formula evaluates to the value that it stores, and to nothing else. -/
theorem evaluates_iff :
    ∀ {x : Formula}, Coherent x → ∀ {value : Rat}, Evaluates x value ↔ value = x.value
  | .literal _ _, _, _ => evaluates_literal_iff
  | .constant _ _ _, _, _ => evaluates_constant_iff
  | .output _ _ _, coherent, _ =>
      evaluates_output_iff.trans (evaluates_iff (coherent_output_iff.mp coherent))
  | .derived id op operands stored, coherent, value => by
      obtain ⟨evaluated, inside⟩ := coherent_derived_iff.mp coherent
      have accepted := Operator.accepts_of_apply_eq_ok evaluated
      calc Evaluates (derived id op operands stored) value
        _ ↔ ∃ values, values = operands.map Formula.value ∧ op.Means values value := by
            simp only [evaluates_derived_iff, forall₂_evaluates_iff inside]
        _ ↔ op.apply (operands.map Formula.value) = .ok value := by
            rw [exists_eq_left, Operator.apply_eq_ok_iff_means accepted]
        _ ↔ value = stored := by rw [evaluated, Except.ok.injEq, eq_comm]

/-- Coherent formulas evaluate to the values that they store. -/
theorem forall₂_evaluates_iff :
    ∀ {operands : List Formula}, (∀ x ∈ operands, Coherent x) → ∀ {values : List Rat},
      List.Forall₂ Evaluates operands values ↔ values = operands.map Formula.value
  | [], _, _ => by simp
  | x :: rest, coherent, values => by
      rw [List.forall_mem_cons] at coherent
      simp only [List.forall₂_cons_left_iff, evaluates_iff coherent.1,
        forall₂_evaluates_iff coherent.2, exists_and_left, exists_eq_left, List.map_cons]

end

/-! ## Failures -/

/-- Building a node fails exactly as its operator does on the values of the operands. -/
theorem derive_eq_error_iff {op : Operator} {operands : List Formula} {refusal : Refusal} :
    derive op operands = .error refusal ↔
      op.apply (operands.map Formula.value) = .error refusal := by
  rw [derive]
  cases op.apply (operands.map Formula.value) with
  | error cause => simp [bind, Except.bind]
  | ok value => simp [bind, Except.bind, pure, Except.pure]

/-- A quotient fails only for a divisor of value zero. -/
theorem div_eq_error_iff {x y : Formula} {cause : Failure} :
    div x y = .error cause ↔ y.value = 0 ∧ cause = .divisionByZero := by
  rw [div, Number.divide]
  by_cases zero : y.value = 0
  · simp [zero, bind, Except.bind, eq_comm]
  · simp [zero, bind, Except.bind, pure, Except.pure]

theorem pow_eq_error_iff {x y : Formula} {cause : Failure} :
    pow x y = .error cause ↔ Number.power x.value y.value = .error cause := by
  rw [pow]
  cases Number.power x.value y.value with
  | error cause => simp [bind, Except.bind]
  | ok value => simp [bind, Except.bind, pure, Except.pure]

end Formula

/-- The operator with which two formulas are joined. -/
def BinaryOperator.operator : BinaryOperator → Operator
  | add => .add
  | sub => .sub
  | mul => .mul
  | div => .div
  | pow => .pow

namespace Formula

/-- A combinator fails exactly where its operator has no value. -/
theorem combine_eq_error_iff {op : BinaryOperator} {x y : Formula} {cause : Failure} :
    x.combine op y = .error cause ↔ op.operator.FailsAt [x.value, y.value] cause := by
  cases op with
  | add | sub | mul => exact ⟨nofun, nofun⟩
  | div =>
      rw [combine, div_eq_error_iff, BinaryOperator.operator]
      constructor
      · rintro ⟨zero, rfl⟩
        exact .div x.value zero
      · rintro ⟨⟩
        exact ⟨by assumption, rfl⟩
  | pow =>
      rw [combine, pow_eq_error_iff, BinaryOperator.operator]
      constructor
      · exact .pow
      · rintro ⟨⟩
        assumption

/--
Every formula that the constructors build, in whatever order and nesting, evaluates
to the value that it stores, and to no other.  Operands of an accepted number make a
formula unless their values have none under the operator, and the cause is told.
-/
theorem built_evaluates :
    (∀ x, Built x → ∀ value, Evaluates x value ↔ value = x.value) ∧
      (∀ op operands, op.arity.accepts operands.length = true →
        ∀ refusal, derive op operands = .error refusal ↔
          ∃ cause, op.FailsAt (operands.map Formula.value) cause ∧ refusal = .failure cause) ∧
      ∀ op x y cause, combine op x y = .error cause ↔
        op.operator.FailsAt [x.value, y.value] cause := by
  refine ⟨fun x built value => evaluates_iff built.coherent, ?_, ?_⟩
  · intro op operands accepted refusal
    rw [derive_eq_error_iff]
    exact Operator.apply_eq_error_iff (by rwa [List.length_map])
  · exact fun op x y cause => combine_eq_error_iff

/--
Half of minus seven rounded down, with a sum flattened into another, is minus one;
three divided by one less one is no formula.
-/
theorem built_evaluates_floor_of_negative :
    let half := ofValue .div [ofRat (-7), ofRat 2] (-7 / 2)
    let total := half.floor.add ((ofRat 1).add (ofRat 2))
    total.operands.length = 3 ∧ Evaluates total (-1) ∧
      derive .div [ofRat 3, (ofRat 1).sub (ofRat 1)] = .error (.failure .divisionByZero) := by
  intro half total
  have quotient : combine .div (ofRat (-7)) (ofRat 2) = .ok half :=
    div_eq_ok_iff.mpr ⟨by decide, rfl⟩
  have inner : combine .add (ofRat 1) (ofRat 2) = .ok ((ofRat 1).add (ofRat 2)) := rfl
  have outer : combine .add half.floor ((ofRat 1).add (ofRat 2)) = .ok total := rfl
  have built : Built total :=
    .combine (.floor (.combine (.literal (-7)) (.literal 2) quotient))
      (.combine (.literal 1) (.literal 2) inner) outer
  refine ⟨rfl, (built_evaluates.1 total built (-1)).mpr (by decide +kernel), ?_⟩
  exact (built_evaluates.2.1 .div _ rfl _).mpr ⟨_, .div 3 (by decide +kernel), rfl⟩

end Formula
end ExactFormula
