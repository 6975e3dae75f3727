import ExactFormula.Formula.Build

/-!
# Local rewrite rules

A rule looks at the root of a formula and either declines or gives a
replacement.  Zero and one stand for literals and constants of that value.
Outputs are opaque: no rule applies to one, and none looks inside.
-/

namespace ExactFormula

/-- The rules, in the order in which a pass tries them. -/
inductive Rule
  /-- `x + 0 + y` becomes `x + y`. -/
  | additiveIdentity
  /-- `x - 0` becomes `x`. -/
  | subtractiveIdentity
  /-- `0 - x` becomes `-1 * x`. -/
  | subtractionFromZero
  /-- `x * 1 * y` becomes `x * y`. -/
  | multiplicativeIdentity
  /-- `x * 0` becomes `0`. -/
  | multiplicativeCollapse
  /-- `a * (p / q) * b` becomes `(a * b * p) / q`. -/
  | productAbsorbsFraction
  /-- `-1 * 5 * x` becomes `-5 * x`; only literals take part. -/
  | signCollapse
  /-- `x / 1` becomes `x`. -/
  | divisionIdentity
  /-- `0 / x` becomes `0`. -/
  | divisionCollapse
  /-- `x / (y / z)` becomes `(x * z) / y`. -/
  | denominatorIsFraction
  /-- `(x / y) / z` becomes `x / (y * z)`. -/
  | numeratorIsFraction
  /-- `x ^ 1` becomes `x`. -/
  | powerIdentity
  /-- `x ^ 0` becomes `1`, then `0 ^ x` becomes `0`, then `1 ^ x` becomes `1`. -/
  | powerCollapse
  deriving DecidableEq, Repr

namespace Rule

/-- Every rule, in order. -/
def all : List Rule :=
  [additiveIdentity, subtractiveIdentity, subtractionFromZero, multiplicativeIdentity,
    multiplicativeCollapse, productAbsorbsFraction, signCollapse, divisionIdentity,
    divisionCollapse, denominatorIsFraction, numeratorIsFraction, powerIdentity,
    powerCollapse]

/-- The name of a rule. -/
def name : Rule → String
  | additiveIdentity => "additive identity"
  | subtractiveIdentity => "subtractive identity"
  | subtractionFromZero => "subtraction from zero"
  | multiplicativeIdentity => "multiplicative identity"
  | multiplicativeCollapse => "multiplicative collapse"
  | productAbsorbsFraction => "product absorbs fraction"
  | signCollapse => "sign collapse"
  | divisionIdentity => "division identity"
  | divisionCollapse => "division collapse"
  | denominatorIsFraction => "denominator is fraction"
  | numeratorIsFraction => "numerator is fraction"
  | powerIdentity => "power identity"
  | powerCollapse => "power collapse"

/-- The rule of a name. -/
def ofName? (name : String) : Option Rule :=
  all.find? (·.name = name)

end Rule

/-- The list around the first entry that passes a test, and what the test gives for that entry. -/
def splitFirst?
    {α β : Type}
    (test : α → Option β) :
    List α → Option (List α × β × List α)
  | [] => none
  | x :: rest =>
      match test x with
      | some found => some ([], found, rest)
      | none => (splitFirst? test rest).map fun split => (x :: split.1, split.2)

/-- The entry that is found stands between the two parts, and none before it passes the test. -/
theorem splitFirst?_eq_some
    {α β : Type}
    {test : α → Option β}
    {entries before after : List α}
    {found : β}
    (split : splitFirst? test entries = some (before, found, after)) :
    (∀ x ∈ before, test x = none) ∧
      ∃ x, test x = some found ∧ entries = before ++ x :: after := by
  induction entries generalizing before with
  | nil => simp [splitFirst?] at split
  | cons x rest inductionHypothesis =>
      unfold splitFirst? at split
      cases passes : test x with
      | some result =>
          simp only [passes, Option.some.injEq, Prod.mk.injEq] at split
          obtain ⟨rfl, rfl, rfl⟩ := split
          exact ⟨by simp, x, passes, rfl⟩
      | none =>
          simp only [passes, Option.map_eq_some_iff] at split
          obtain ⟨⟨first, result, last⟩, found, equal⟩ := split
          simp only [Prod.mk.injEq] at equal
          obtain ⟨rfl, rfl, rfl⟩ := equal
          obtain ⟨unmatched, y, matched, rfl⟩ := inductionHypothesis found
          exact ⟨by simpa [passes] using unmatched, y, matched, rfl⟩

namespace Formula

/-- The operands of a formula with the given operator, where their number is one that it takes. -/
def operandsOf? (op : Operator) : Formula → Option (List Formula)
  | derived _ own operands _ =>
      if own = op ∧ op.arity.accepts operands.length then some operands else none
  | _ => none

/-- The two operands of a formula with the given binary operator. -/
def pairOf? (op : Operator) (x : Formula) : Option (Formula × Formula) :=
  match x.operandsOf? op with
  | some [left, right] => some (left, right)
  | _ => none

/-- The operands that are found belong to a formula with the operator and are as many as it takes. -/
theorem operandsOf?_eq_some
    {op : Operator}
    {x : Formula}
    {operands : List Formula}
    (found : x.operandsOf? op = some operands) :
    op.arity.accepts operands.length = true ∧
      ∃ id value, x = derived id op operands value := by
  cases x with
  | derived id own held value =>
      simp only [operandsOf?, Option.ite_none_right_eq_some, Option.some.injEq] at found
      obtain ⟨⟨rfl, accepted⟩, rfl⟩ := found
      exact ⟨accepted, id, value, rfl⟩
  | _ => simp [operandsOf?] at found

/-- A pair that is found is the operand list of a formula with the operator. -/
theorem pairOf?_eq_some
    {op : Operator}
    {x left right : Formula}
    (found : x.pairOf? op = some (left, right)) :
    ∃ id value, x = derived id op [left, right] value := by
  unfold pairOf? at found
  split at found
  · rename_i first second operands
    simp only [Option.some.injEq, Prod.mk.injEq] at found
    obtain ⟨rfl, rfl⟩ := found
    exact (operandsOf?_eq_some operands).2
  · simp at found

/-- The numerator and the denominator of a quotient. -/
def fraction? (x : Formula) : Option (Formula × Formula) :=
  x.pairOf? .div

/-- The chain without its identity elements, unless it has none. -/
def dropIdentities?
    (op : Operator)
    (isIdentity : Formula → Bool)
    (x : Formula) :
    Option Formula := do
  let operands ← x.operandsOf? op
  let kept := operands.filter fun operand => !isIdentity operand
  if kept.length = operands.length then none
  else
    match kept with
    | [] => some (ofRat x.value)
    | [single] => some single
    | _ => some (ofValue op kept x.value)

/-- A product with a fraction among its factors becomes one fraction. -/
def absorbFraction? (x : Formula) : Option Formula := do
  let factors ← x.operandsOf? .mul
  let (before, (numerator, denominator), after) ← splitFirst? fraction? factors
  (div (product (before ++ after ++ [numerator])) denominator).toOption

/-- A literal of minus one. -/
def minusOne? (x : Formula) : Option Unit :=
  if x.literalValue? = some (-1) then some () else none

/-- A product with a literal minus one and another literal loses the former and negates the latter. -/
def foldSign? (x : Formula) : Option Formula := do
  let factors ← x.operandsOf? .mul
  let (before, _, after) ← splitFirst? minusOne? factors
  let (front, value, back) ← splitFirst? literalValue? (before ++ after)
  match front ++ ofRat (-value) :: back with
  | [single] => some single
  | remaining => some (ofValue .mul remaining x.value)

end Formula

namespace Rule

open Formula

/-- The replacement that a rule gives for a formula, unless it declines. -/
def apply (rule : Rule) (x : Formula) : Option Formula :=
  match rule with
  | additiveIdentity => x.dropIdentities? .add isZero
  | subtractiveIdentity => do
      let (left, right) ← x.pairOf? .sub
      if right.isZero then some left else none
  | subtractionFromZero => do
      let (left, right) ← x.pairOf? .sub
      if left.isZero then some (mul (ofRat (-1)) right) else none
  | multiplicativeIdentity => x.dropIdentities? .mul isOne
  | multiplicativeCollapse => do
      let factors ← x.operandsOf? .mul
      if factors.any isZero then some (ofRat 0) else none
  | productAbsorbsFraction => x.absorbFraction?
  | signCollapse => x.foldSign?
  | divisionIdentity => do
      let (numerator, denominator) ← x.fraction?
      if denominator.isOne then some numerator else none
  | divisionCollapse => do
      let (numerator, _) ← x.fraction?
      if numerator.isZero then some (ofRat 0) else none
  | denominatorIsFraction => do
      let (numerator, denominator) ← x.fraction?
      let (above, below) ← denominator.fraction?
      (div (mul numerator below) above).toOption
  | numeratorIsFraction => do
      let (numerator, denominator) ← x.fraction?
      let (above, below) ← numerator.fraction?
      (div above (mul below denominator)).toOption
  | powerIdentity => do
      let (base, exponent) ← x.pairOf? .pow
      if exponent.isOne then some base else none
  | powerCollapse => do
      let (base, exponent) ← x.pairOf? .pow
      if exponent.isZero then some (ofRat 1)
      else if base.isZero then some (ofRat 0)
      else if base.isOne then some (ofRat 1)
      else none

end Rule
end ExactFormula
