import ExactFormula.Proofs.Formula.Coherence

/-!
# Terms

A term is a formula written out: constants have become numbers, outputs have given
way to what they wrap, and identities and values are left out.  Chains are not
flattened again where an output goes.  A coherent formula has the value of its term.
-/

namespace ExactFormula

/-- Numbers under operators. -/
inductive Term
  /-- A number. -/
  | number (value : Rat)
  /-- An operator and its operands. -/
  | node (op : Operator) (operands : List Term)

namespace Formula

mutual

/-- The term of a formula. -/
def term : Formula → Term
  | literal _ value => .number value
  | constant _ _ value => .number value
  | output _ _ inner => inner.term
  | derived _ op operands _ => .node op (termsOf operands)

/-- The terms of some formulas. -/
def termsOf : List Formula → List Term
  | [] => []
  | x :: rest => x.term :: termsOf rest

end

end Formula

namespace Term

mutual

/-- The value of a term, if its operators have values. -/
def value? : Term → Option Rat
  | number value => some value
  | node op operands => (valuesOf? operands).bind fun values => (op.apply values).toOption

/-- The values of some terms, if all of them have one. -/
def valuesOf? : List Term → Option (List Rat)
  | [] => some []
  | x :: rest => x.value?.bind fun value => (valuesOf? rest).map (value :: ·)

end

end Term

namespace Formula

mutual

/-- The value that a coherent formula stores is that of its term. -/
theorem value?_term : ∀ x : Formula, Coherent x → x.term.value? = some x.value
  | literal _ _, _ => rfl
  | constant _ _ _, _ => rfl
  | output _ _ inner, coherent => value?_term inner (coherent_output_iff.mp coherent)
  | derived _ op operands value, coherent => by
      obtain ⟨evaluated, inside⟩ := coherent_derived_iff.mp coherent
      rw [term, Term.value?, valuesOf?_termsOf operands inside, Option.bind_some, evaluated]
      rfl

theorem valuesOf?_termsOf :
    ∀ operands : List Formula, (∀ x ∈ operands, Coherent x) →
      Term.valuesOf? (termsOf operands) = some (operands.map Formula.value)
  | [], _ => rfl
  | x :: rest, coherent => by
      rw [List.forall_mem_cons] at coherent
      rw [termsOf, Term.valuesOf?, value?_term x coherent.1, valuesOf?_termsOf rest coherent.2]
      rfl

end

/-- Coherent formulas with one term have one value. -/
theorem value_eq_of_term_eq
    {x y : Formula}
    (same : x.term = y.term)
    (left : Coherent x)
    (right : Coherent y) :
    x.value = y.value := by
  have value := value?_term x left
  rw [same, value?_term y right, Option.some.injEq] at value
  exact value.symm

end Formula
end ExactFormula
