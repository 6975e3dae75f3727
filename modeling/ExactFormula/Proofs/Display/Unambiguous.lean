import ExactFormula.Proofs.Display.Written
import ExactFormula.Proofs.Number.ExactText
import ExactFormula.Proofs.Store.Session

/-!
# Expanded renderings are unambiguous

The text of a term is read from the left.  What follows an operand cannot be taken
for more of it, so the operand is the same in every reading of the text.
-/

namespace ExactFormula

open Formula Number

/-- A text does not go on with what could belong to a term of some strength before it. -/
structure Stops (strength : Nat) (rest : List Char) : Prop where
  /-- It does not begin with more of a number. -/
  decimal : ∀ c more, rest = c :: more → ¬IsDecimalChar c
  /-- It does not begin with the sign of an operator that is strong enough. -/
  spaced : ∀ (op : Operator) more, strength ≤ op.strength → rest ≠ op.spaced ++ more

namespace Stops

variable {strength : Nat} {rest : List Char}

/-- What stops a term stops one that holds more strongly as well. -/
theorem mono {more : Nat} (stops : Stops strength rest) (le : strength ≤ more) :
    Stops more rest where
  decimal := stops.decimal
  spaced op others strong := stops.spaced op others (Nat.le_trans le strong)

theorem nil : Stops strength [] where
  decimal := by simp
  spaced := by simp [Operator.spaced]

/-- A text stops at a character that is neither a blank nor part of a number. -/
theorem cons {c : Char} (decimal : ¬IsDecimalChar c) (visible : c ≠ ' ') (rest : List Char) :
    Stops strength (c :: rest) where
  decimal first more equal := by
    cases equal
    exact decimal
  spaced op more _ equal := visible (List.cons.inj equal).1

end Stops

theorem not_isDecimalChar
    {c : Char}
    (digit : c.isDigit = false)
    (minus : c ≠ '-')
    (point : c ≠ '.') :
    ¬IsDecimalChar c := by
  rintro (isDigit | isMinus | isPoint)
  · simp [digit] at isDigit
  · exact minus isMinus
  · exact point isPoint

namespace Operator

/-- The signs between operands tell operators apart. -/
theorem eq_of_spaced_append
    {first second : Operator}
    {left right : List Char}
    (same : first.spaced ++ left = second.spaced ++ right) :
    first = second := by
  cases first <;> cases second <;> simp_all [spaced, symbol]

/-- The sign of an operator does not go on with what is stronger than the operator. -/
theorem stops_spaced
    {op : Operator}
    {demand : Nat}
    (weak : op.strength < demand)
    (rest : List Char) :
    Stops demand (op.spaced ++ rest) where
  decimal c more equal := by
    cases equal
    exact not_isDecimalChar rfl (by decide) (by decide)
  spaced other more strong equal := by
    cases eq_of_spaced_append equal
    exact Nat.not_lt_of_le strong weak

/-- No operand goes on with the joint of its operator. -/
theorem stops_joint (op : Operator) (rest : List Char) : Stops op.demand (op.joint ++ rest) := by
  cases op with
  | add => exact stops_spaced (by decide) rest
  | sub => exact stops_spaced (by decide) rest
  | mul => exact stops_spaced (by decide) rest
  | div => exact .cons (not_isDecimalChar rfl (by decide) (by decide)) (by decide) _
  | floor => exact .cons (not_isDecimalChar rfl (by decide) (by decide)) (by decide) _
  | pow => exact .cons (not_isDecimalChar rfl (by decide) (by decide)) (by decide) _

/-- Functions, fractions and powers are told apart by how they open. -/
theorem eq_of_opening_append
    {first second : Operator}
    (strong : 2 ≤ first.strength)
    (strongToo : 2 ≤ second.strength)
    {left right : List Char}
    (same : first.opening ++ left = second.opening ++ right) :
    first = second := by
  cases first <;> cases second <;> simp_all [strength, opening]

theorem stops_closing
    {op : Operator}
    (strong : 2 ≤ op.strength)
    (demand : Nat)
    (rest : List Char) :
    Stops demand (op.closing ++ rest) := by
  cases op with
  | add => exact absurd strong (by decide)
  | sub => exact absurd strong (by decide)
  | mul => exact absurd strong (by decide)
  | div => exact .cons (not_isDecimalChar rfl (by decide) (by decide)) (by decide) _
  | floor => exact .cons (not_isDecimalChar rfl (by decide) (by decide)) (by decide) _
  | pow => exact .cons (not_isDecimalChar rfl (by decide) (by decide)) (by decide) _

/-- After the last operand there is no room for another one. -/
theorem closing_append_ne_joint
    {op : Operator}
    (strong : 2 ≤ op.strength)
    {rest : List Char}
    (ends : ∀ more, rest ≠ op.spaced ++ more)
    (more : List Char) :
    op.closing ++ rest ≠ op.joint ++ more := by
  intro same
  cases op with
  | add => exact absurd strong (by decide)
  | sub => exact absurd strong (by decide)
  | mul => exact absurd strong (by decide)
  | div => simp [closing, joint] at same
  | floor => simp [closing, joint] at same
  | pow =>
      refine ends ('\x7b' :: more) ((List.cons.inj same).2.trans ?_)
      simp

end Operator

namespace Term

/--
Whatever printable term the text of an operand is taken for, it is that operand,
and the same text is left over.
-/
def Decodes (demand : Nat) (x : Term) : Prop :=
  ∀ (y : Term) (rest others : List Char), y.Printable → Stops demand rest → Stops demand others →
    x.under demand ++ rest = y.under demand ++ others → x = y ∧ rest = others

/-! ## Operands in a row -/

theorem intercalate_cons (joint first : List Char) (rest : List (List Char)) :
    joint.intercalate (first :: rest) = first ++ rest.flatMap (joint ++ ·) := by
  induction rest generalizing first with
  | nil => simp
  | cons second rest inductionHypothesis =>
      rw [List.intercalate_cons_cons, inductionHypothesis, List.flatMap_cons]
      simp

/--
Two rows of operands with one text are one row, when neither text left over goes on
with the sign that stands in the other row.
-/
theorem row_unique
    {demand : Nat}
    {op other : Operator}
    (opDemand : op.demand = demand)
    (otherDemand : other.demand = demand)
    (distinct : ∀ left right, op.joint ++ left = other.joint ++ right → op = other)
    {x y : Term}
    {xs ys : List Term}
    (decodes : ∀ operand ∈ x :: xs, Decodes demand operand)
    (printable : ∀ operand ∈ y :: ys, operand.Printable)
    {rest others : List Char}
    (stopsRest : Stops demand rest)
    (stopsOthers : Stops demand others)
    (endsRest : ∀ more, rest ≠ other.joint ++ more)
    (endsOthers : ∀ more, others ≠ op.joint ++ more)
    (same : x.under demand ++ ((xs.map (under demand)).flatMap (op.joint ++ ·) ++ rest) =
      y.under demand ++ ((ys.map (under demand)).flatMap (other.joint ++ ·) ++ others)) :
    x :: xs = y :: ys ∧ rest = others ∧ (xs = [] ∨ op = other) := by
  have stopsOp (more : List Char) : Stops demand (op.joint ++ more) :=
    opDemand ▸ op.stops_joint more
  have stopsOther (more : List Char) : Stops demand (other.joint ++ more) :=
    otherDemand ▸ other.stops_joint more
  induction xs generalizing x y ys with
  | nil =>
      have first := decodes x (by simp) y
      cases ys with
      | nil =>
          obtain ⟨rfl, rfl⟩ := first _ _ (printable y (by simp)) stopsRest stopsOthers same
          exact ⟨rfl, rfl, .inl rfl⟩
      | cons next ys =>
          simp only [List.map_cons, List.flatMap_cons, List.append_assoc] at same
          obtain ⟨_, goesOn⟩ := first _ _ (printable y (by simp)) stopsRest (stopsOther _) same
          exact absurd goesOn (endsRest _)
  | cons next xs inductionHypothesis =>
      have first := decodes x (by simp) y
      simp only [List.map_cons, List.flatMap_cons, List.append_assoc] at same
      cases ys with
      | nil =>
          obtain ⟨_, goesOn⟩ := first _ _ (printable y (by simp)) (stopsOp _) stopsOthers same
          exact absurd goesOn.symm (endsOthers _)
      | cons following ys =>
          simp only [List.map_cons, List.flatMap_cons, List.append_assoc] at same
          obtain ⟨rfl, tails⟩ := first _ _ (printable y (by simp)) (stopsOp _) (stopsOther _) same
          obtain rfl := distinct _ _ tails
          obtain ⟨equal, left, _⟩ := inductionHypothesis
            (fun operand member => decodes operand (List.mem_cons_of_mem x member))
            (fun operand member => printable operand (List.mem_cons_of_mem x member))
            (List.append_cancel_left tails)
          exact ⟨congrArg (x :: ·) equal, left, .inr rfl⟩

/-! ## Sums and products -/

/--
A term as a row of operands with the sign of one operator between them: those of a
chain whose operator has the strength, and otherwise the term alone.
-/
inductive RowAt (strength : Nat) : Term → Operator → Term → List Term → Prop
  | single
      {x : Term}
      {op : Operator} :
      x.strength ≠ strength → op.strength = strength → RowAt strength x op x []
  | chain
      {op : Operator}
      {x : Term}
      {xs : List Term} :
      op.strength = strength → xs ≠ [] → RowAt strength (node op (x :: xs)) op x xs

theorem exists_strength_eq {strength : Nat} (le_one : strength ≤ 1) :
    ∃ op : Operator, op.strength = strength := by
  obtain rfl | rfl : strength = 0 ∨ strength = 1 := by omega
  · exact ⟨.add, rfl⟩
  · exact ⟨.mul, rfl⟩

/-- Every printable term is a row at each of the two strengths of chains. -/
theorem Printable.exists_rowAt
    {x : Term}
    (printable : x.Printable)
    {strength : Nat}
    (le_one : strength ≤ 1) :
    ∃ op first rest, RowAt strength x op first rest ∧ ∀ y ∈ first :: rest, y.Printable := by
  by_cases chain : x.strength = strength
  · cases printable with
    | number finite =>
        change 3 = strength at chain
        omega
    | @node op operands accepted inside =>
        have strong : op.strength = strength := chain
        match operands, accepted with
        | [], accepted => cases op <;> simp [Operator.arity, Arity.accepts] at accepted
        | [single], accepted =>
            cases op <;> simp [Operator.arity, Arity.accepts, Operator.strength] at accepted strong
            omega
        | first :: second :: rest, _ =>
            exact ⟨op, first, second :: rest, .chain strong (by simp), inside⟩
  · obtain ⟨op, joins⟩ := exists_strength_eq le_one
    exact ⟨op, x, [], .single chain joins, by simpa using printable⟩

theorem joint_eq_spaced
    {op : Operator}
    (le_one : op.strength ≤ 1) :
    op.joint = op.spaced ∧ op.demand = op.strength + 1 ∧ op.opening = [] ∧ op.closing = [] := by
  cases op <;> simp_all [Operator.strength, Operator.joint, Operator.demand, Operator.opening,
    Operator.closing]

namespace RowAt

variable {strength : Nat} {x y first : Term} {op other : Operator} {rest : List Term}

/-- A term is written as the operands of its row, with the sign between them. -/
theorem under_eq (row : RowAt strength x op first rest) (le_one : strength ≤ 1) :
    x.under strength =
      first.under (strength + 1) ++
        (rest.map (under (strength + 1))).flatMap (op.joint ++ ·) := by
  cases row with
  | single differs joins =>
      have same : x.strength < strength ↔ x.strength < strength + 1 := by omega
      simp [under, grouped, same]
  | chain joins several =>
      subst joins
      obtain ⟨_, demand, opening, closing⟩ := joint_eq_spaced le_one
      have strong : op.strength ≤ (node op (first :: rest)).strength := le_rfl
      have ungrouped := under_of_le strong
      rw [ungrouped, text_node, demand, opening, closing, List.map_cons, intercalate_cons]
      simp

/-- A row belongs to one term. -/
theorem unique
    (row : RowAt strength x op first rest)
    (twin : RowAt strength y other first rest)
    (joined : rest = [] ∨ op = other) :
    x = y := by
  cases row with
  | single differs joins =>
      cases twin with
      | single => rfl
      | chain _ several => exact absurd rfl several
  | chain joins several =>
      cases twin with
      | single => exact absurd rfl several
      | chain => rw [joined.resolve_left several]

/-- A row is decoded operand by operand. -/
theorem decodes
    (row : RowAt strength x op first rest)
    (le_one : strength ≤ 1)
    (operands : ∀ operand ∈ first :: rest, Decodes (strength + 1) operand) :
    Decodes strength x := by
  intro y left right printable stopsLeft stopsRight same
  obtain ⟨other, second, others, twin, parts⟩ := printable.exists_rowAt le_one
  have ofStrength : op.strength = strength := by cases row <;> assumption
  have otherStrength : other.strength = strength := by cases twin <;> assumption
  obtain ⟨joint, demand, _⟩ := joint_eq_spaced (ofStrength.trans_le le_one)
  obtain ⟨otherJoint, otherDemand, _⟩ := joint_eq_spaced (otherStrength.trans_le le_one)
  rw [row.under_eq le_one, twin.under_eq le_one, List.append_assoc, List.append_assoc] at same
  obtain ⟨equal, leftOver, joined⟩ := row_unique (demand.trans (congrArg (· + 1) ofStrength))
    (otherDemand.trans (congrArg (· + 1) otherStrength))
    (fun _ _ signs => Operator.eq_of_spaced_append (joint ▸ otherJoint ▸ signs)) operands parts
    (stopsLeft.mono (Nat.le_succ strength)) (stopsRight.mono (Nat.le_succ strength))
    (fun more => otherJoint ▸ stopsLeft.spaced other more otherStrength.ge)
    (fun more => joint ▸ stopsRight.spaced op more ofStrength.ge) same
  cases equal
  exact ⟨row.unique twin joined, leftOver⟩

end RowAt

/-- A term that is no chain of the strength is an operand in a row of its own. -/
theorem decodes_of_ne
    {x : Term}
    {strength : Nat}
    (le_one : strength ≤ 1)
    (differs : x.strength ≠ strength)
    (next : Decodes (strength + 1) x) :
    Decodes strength x := by
  obtain ⟨op, joins⟩ := exists_strength_eq le_one
  exact (RowAt.single differs joins).decodes le_one (by simpa using next)

theorem decodes_chain
    {op : Operator}
    {operands : List Term}
    (printable : (node op operands).Printable)
    (le_one : op.strength ≤ 1)
    (inside : ∀ x ∈ operands, Decodes (op.strength + 1) x) :
    Decodes op.strength (node op operands) := by
  obtain ⟨other, first, rest, row, _⟩ := printable.exists_rowAt le_one
  cases row with
  | single differs => exact absurd rfl differs
  | chain joins several => exact (RowAt.chain rfl several).decodes le_one inside

/-! ## First characters -/

theorem Printable.exists_operands
    {op : Operator}
    {operands : List Term}
    (printable : (Term.node op operands).Printable) :
    ∃ first rest, operands = first :: rest := by
  cases printable with
  | node accepted _ =>
      cases operands with
      | nil => cases op <;> simp [Operator.arity, Arity.accepts] at accepted
      | cons first rest => exact ⟨first, rest, rfl⟩

theorem exists_text_number {value : Rat} (finite : (decimalPlaces? value).isSome = true) :
    ∃ c more, (number value).text = c :: more ∧ IsDecimalChar c := by
  obtain ⟨c, more, text⟩ := List.exists_cons_of_ne_nil (toList_exactText_ne_nil value)
  exact ⟨c, more, text, isDecimalChar_of_mem_decimal finite c (text ▸ List.mem_cons_self ..)⟩

/-- Functions, fractions and powers do not open like a number or a group. -/
theorem exists_opening {op : Operator} (strong : 2 ≤ op.strength) :
    ∃ c more, op.opening = c :: more ∧ ¬IsDecimalChar c ∧ c ≠ '(' := by
  cases op with
  | add => exact absurd strong (by decide)
  | sub => exact absurd strong (by decide)
  | mul => exact absurd strong (by decide)
  | div => exact ⟨_, _, rfl, not_isDecimalChar rfl (by decide) (by decide), by decide⟩
  | floor => exact ⟨_, _, rfl, not_isDecimalChar rfl (by decide) (by decide), by decide⟩
  | pow => exact ⟨_, _, rfl, not_isDecimalChar rfl (by decide) (by decide), by decide⟩

/-- The operands of a power do not begin with a parenthesis. -/
theorem Printable.exists_under
    {x : Term}
    (printable : x.Printable)
    {demand : Nat}
    (two_le : 2 ≤ demand) :
    ∃ c more, x.under demand = c :: more ∧ c ≠ '(' := by
  by_cases weak : x.strength < demand
  · exact ⟨_, _, under_of_lt weak, by decide⟩
  · have strong : demand ≤ x.strength := Nat.le_of_not_lt weak
    rw [under_of_le strong]
    cases printable with
    | number finite =>
        obtain ⟨c, more, text, decimal⟩ := exists_text_number finite
        refine ⟨c, more, text, ?_⟩
        rintro rfl
        exact not_isDecimalChar rfl (by decide) (by decide) decimal
    | @node op operands accepted inside =>
        obtain ⟨c, more, opening, _, noParenthesis⟩ := exists_opening (two_le.trans strong)
        rw [text_node, opening]
        exact ⟨c, _, rfl, noParenthesis⟩

/-- Only a group begins like a group. -/
theorem Printable.text_append_ne_group
    {x : Term}
    (printable : x.Printable)
    (strong : 2 ≤ x.strength)
    (left more : List Char) :
    x.text ++ left ≠ '\x7b' :: '(' :: more := by
  intro same
  cases printable with
  | number finite =>
      obtain ⟨c, others, text, decimal⟩ := exists_text_number finite
      rw [text] at same
      obtain rfl := (List.cons.inj same).1
      exact not_isDecimalChar rfl (by decide) (by decide) decimal
  | @node op operands accepted inside =>
      have enclosed : 2 ≤ op.strength := strong
      rw [text_node] at same
      cases op with
      | add => exact absurd enclosed (by decide)
      | sub => exact absurd enclosed (by decide)
      | mul => exact absurd enclosed (by decide)
      | div => simp [Operator.opening] at same
      | floor => simp [Operator.opening] at same
      | pow =>
          obtain ⟨base, others, rfl⟩ := (Printable.node accepted inside).exists_operands
          have brace : 2 ≤ Operator.pow.demand := by decide
          obtain ⟨c, rest, text, noParenthesis⟩ := (inside base (by simp)).exists_under brace
          rw [List.map_cons, intercalate_cons, text] at same
          exact noParenthesis (List.cons.inj (List.cons.inj same).2).1

/-! ## Groups, fractions, functions and powers -/

/-- A group is decoded through what is inside. -/
theorem decodes_of_lt
    {x : Term}
    {demand : Nat}
    (two_le : 2 ≤ demand)
    (weak : x.strength < demand)
    (inside : Decodes 0 x) :
    Decodes demand x := by
  intro y left right printable stopsLeft stopsRight same
  rw [under_of_lt weak, ← under_of_le (Nat.zero_le x.strength)] at same
  by_cases weakToo : y.strength < demand
  · rw [under_of_lt weakToo, ← under_of_le (Nat.zero_le y.strength)] at same
    simp only [List.cons_append, List.append_assoc, List.cons.injEq, true_and] at same
    have ends (rest : List Char) : Stops 0 (')' :: rest) :=
      .cons (not_isDecimalChar rfl (by decide) (by decide)) (by decide) rest
    obtain ⟨equal, leftOver⟩ := inside y _ _ printable (ends _) (ends _) same
    exact ⟨equal, by simpa using leftOver⟩
  · have strong : demand ≤ y.strength := Nat.le_of_not_lt weakToo
    rw [under_of_le strong] at same
    exact absurd same.symm (printable.text_append_ne_group (two_le.trans strong) right _)

/-- Texts of one kind of characters end where other characters follow. -/
theorem append_unique
    {property : Char → Prop}
    {first second rest others : List Char}
    (inFirst : ∀ c ∈ first, property c)
    (inSecond : ∀ c ∈ second, property c)
    (endsFirst : ∀ c more, rest = c :: more → ¬property c)
    (endsSecond : ∀ c more, others = c :: more → ¬property c)
    (same : first ++ rest = second ++ others) :
    first = second ∧ rest = others := by
  induction first generalizing second with
  | nil =>
      cases second with
      | nil => exact ⟨rfl, same⟩
      | cons c second => exact absurd (inSecond c (by simp)) (endsFirst c _ same)
  | cons c first inductionHypothesis =>
      cases second with
      | nil => exact absurd (inFirst c (by simp)) (endsSecond c _ same.symm)
      | cons d second =>
          rw [List.forall_mem_cons] at inFirst inSecond
          obtain ⟨rfl, tails⟩ := List.cons.inj same
          obtain ⟨rfl, leftOver⟩ := inductionHypothesis inFirst.2 inSecond.2 tails
          exact ⟨rfl, leftOver⟩

theorem text_number_append_ne_text_node
    {value : Rat}
    (finite : (decimalPlaces? value).isSome = true)
    {op : Operator}
    (strong : 2 ≤ op.strength)
    (operands : List Term)
    (left right : List Char) :
    (number value).text ++ left ≠ (node op operands).text ++ right := by
  intro same
  obtain ⟨c, _, text, decimal⟩ := exists_text_number finite
  obtain ⟨d, _, opening, notDecimal, _⟩ := exists_opening strong
  rw [text_node, text, opening] at same
  exact notDecimal ((List.cons.inj same).1 ▸ decimal)

/-- The text of a number, with what stops it, tells the number. -/
theorem decodes_number
    {value : Rat}
    (finite : (decimalPlaces? value).isSome = true)
    {demand : Nat}
    (two_le : 2 ≤ demand)
    (le_three : demand ≤ 3) :
    Decodes demand (number value) := by
  intro y left right printable stopsLeft stopsRight same
  rw [under_of_le (show demand ≤ (number value).strength from le_three)] at same
  by_cases weak : y.strength < demand
  · rw [under_of_lt weak] at same
    exact absurd same ((Printable.number finite).text_append_ne_group (show 2 ≤ 3 by decide) left _)
  · have strong : demand ≤ y.strength := Nat.le_of_not_lt weak
    rw [under_of_le strong] at same
    cases printable with
    | @number other otherFinite =>
        obtain ⟨equal, leftOver⟩ := append_unique (isDecimalChar_of_mem_decimal finite)
          (isDecimalChar_of_mem_decimal otherFinite) stopsLeft.decimal stopsRight.decimal same
        have texts : exactText value = exactText other := String.toList_inj.mp equal
        exact ⟨congrArg number (exactText_injective texts), leftOver⟩
    | node accepted inside =>
        exact absurd same (text_number_append_ne_text_node finite (two_le.trans strong) _ _ _)

/-- A fraction, a function or a power is decoded operand by operand between its signs. -/
theorem decodes_node
    {op : Operator}
    {operands : List Term}
    (printable : (node op operands).Printable)
    {demand : Nat}
    (two_le : 2 ≤ demand)
    (strong : demand ≤ op.strength)
    (inside : ∀ x ∈ operands, Decodes op.demand x) :
    Decodes demand (node op operands) := by
  intro y left right printableToo stopsLeft stopsRight same
  rw [under_of_le (show demand ≤ (node op operands).strength from strong)] at same
  by_cases weak : y.strength < demand
  · rw [under_of_lt weak] at same
    exact absurd same (printable.text_append_ne_group (two_le.trans strong) left _)
  · have strongToo : demand ≤ y.strength := Nat.le_of_not_lt weak
    rw [under_of_le strongToo] at same
    cases printableToo with
    | number finite =>
        exact absurd same.symm
          (text_number_append_ne_text_node finite (two_le.trans strong) _ _ _)
    | @node other others acceptedToo insideToo =>
        have enclosed : 2 ≤ op.strength := two_le.trans strong
        have ends {rest : List Char} (stops : Stops demand rest) (more : List Char) :
            op.closing ++ rest ≠ op.joint ++ more :=
          Operator.closing_append_ne_joint enclosed (fun _ => stops.spaced op _ strong) more
        simp only [text_node, List.append_assoc] at same
        obtain rfl := Operator.eq_of_opening_append enclosed (two_le.trans strongToo) same
        have rows := List.append_cancel_left same
        obtain ⟨x, xs, rfl⟩ := printable.exists_operands
        obtain ⟨y, ys, rfl⟩ := (Printable.node acceptedToo insideToo).exists_operands
        simp only [List.map_cons, intercalate_cons, List.append_assoc] at rows
        obtain ⟨equal, leftOver, _⟩ := row_unique rfl rfl (fun _ _ _ => rfl) inside insideToo
          (Operator.stops_closing enclosed _ _) (Operator.stops_closing enclosed _ _)
          (ends stopsLeft) (ends stopsRight) rows
        exact ⟨congrArg (node op) equal, List.append_cancel_left leftOver⟩

/-! ## All terms -/

/--
A term that is decoded where it stands without a group is decoded everywhere: in a
row of another strength it is an operand of its own, and else there is a group around it.
-/
theorem decodes_of_ungrouped
    {x : Term}
    (ungrouped : ∀ demand, min 2 x.strength ≤ demand → demand ≤ x.strength → Decodes demand x)
    (demand : Nat) :
    Decodes demand x := by
  have zero : Decodes 0 x := by
    obtain sum | product | strong : x.strength = 0 ∨ x.strength = 1 ∨ 2 ≤ x.strength := by omega
    · exact ungrouped 0 (by omega) (by omega)
    · exact decodes_of_ne (by decide) (by omega) (ungrouped 1 (by omega) (by omega))
    · have one := decodes_of_ne le_rfl (by omega) (ungrouped 2 (by omega) strong)
      exact decodes_of_ne (by decide) (by omega) one
  have enclosed (demand : Nat) (two_le : 2 ≤ demand) : Decodes demand x := by
    by_cases weak : x.strength < demand
    · exact decodes_of_lt two_le weak zero
    · exact ungrouped demand (by omega) (Nat.le_of_not_lt weak)
  obtain rfl | rfl | two_le : demand = 0 ∨ demand = 1 ∨ 2 ≤ demand := by omega
  · exact zero
  · by_cases product : x.strength = 1
    · exact ungrouped 1 (by omega) product.ge
    · exact decodes_of_ne le_rfl product (enclosed 2 le_rfl)
  · exact enclosed demand two_le

/-- A printable term is decoded whatever strength is demanded of it. -/
theorem Printable.decodes {x : Term} (printable : x.Printable) (demand : Nat) :
    Decodes demand x := by
  induction printable generalizing demand with
  | @number value finite =>
      exact decodes_of_ungrouped (fun _ => decodes_number finite) demand
  | @node op operands accepted inside inductionHypothesis =>
      have printable : (Term.node op operands).Printable := .node accepted inside
      refine decodes_of_ungrouped (fun demand least most => ?_) demand
      change min 2 op.strength ≤ demand at least
      change demand ≤ op.strength at most
      by_cases chain : op.strength ≤ 1
      · obtain rfl : op.strength = demand := by omega
        exact decodes_chain printable chain fun x member => inductionHypothesis x member _
      · exact decodes_node printable (by omega) most fun x member =>
          inductionHypothesis x member _

/-- Printable terms with one text are one term. -/
theorem eq_of_text_eq
    {x y : Term}
    (left : x.Printable)
    (right : y.Printable)
    (same : x.text = y.text) :
    x = y := by
  have texts : x.under 0 ++ [] = y.under 0 ++ [] := by
    rw [under_of_le (Nat.zero_le _), under_of_le (Nat.zero_le _), same]
  exact (left.decodes 0 y [] [] right .nil .nil texts).1

end Term

/--
Two formulas of sessions that are written alike with all names expanded have the
same term, and therefore the same value if they are coherent.
-/
theorem term_eq_of_render_eq
    {store other : Store}
    {held others : List Formula}
    {x y : Formula}
    (session : Session store held)
    (otherSession : Session other others)
    (member : x ∈ held)
    (otherMember : y ∈ others)
    (terminates : x.Everywhere Formula.Terminates)
    (otherTerminates : y.Everywhere Formula.Terminates)
    (places : Nat)
    (same : Settings.render { expand := true, format := .decimal places } x =
      Settings.render { expand := true, format := .decimal places } y) :
    x.term = y.term ∧ (x.Coherent → y.Coherent → x.value = y.value) := by
  have texts := congrArg String.toList same
  rw [Settings.toList_render rfl rfl x terminates,
    Settings.toList_render rfl rfl y otherTerminates] at texts
  have terms : x.term = y.term :=
    Term.eq_of_text_eq (Formula.printable_term x (session.wellFormed x member) terminates)
      (Formula.printable_term y (otherSession.wellFormed y otherMember) otherTerminates) texts
  exact ⟨terms, Formula.value_eq_of_term_eq terms⟩

/-- A named sum with a named number in it, and the sum of the numbers alone. -/
theorem term_eq_of_render_eq_named_sum :
    let settings : Settings := { expand := true, format := .decimal 10 }
    let first := ({} : Store).enter []
      (labelled "price" (add (ofRat 2) (named "tax" (1 / 2))))
    let second := ({} : Store).enter [] (add (ofRat 2) (ofRat (1 / 2)))
    Session first.2 [first.1] ∧ Session second.2 [second.1] ∧
      settings.render first.1 = settings.render second.1 ∧ first.1.term = second.1.term := by
  intro settings first second
  have sum {x y : Formula} (left : Everywhere Terminates x) (right : Everywhere Terminates y) :
      Everywhere Terminates (add x y) :=
    everywhere_ofValue rfl (by simp [left, right])
  have two : Everywhere Terminates (ofRat 2) := everywhere_literal.mpr (by decide +kernel)
  have tax : Everywhere Terminates (named "tax" (1 / 2)) :=
    everywhere_constant.mpr (by decide +kernel)
  have half : Everywhere Terminates (ofRat (1 / 2)) := everywhere_literal.mpr (by decide +kernel)
  have session : Session first.2 [first.1] := by
    refine .enter .start (.output "price" ?_)
    exact .combine (.literal 2) (.constant "tax" _) (show combine .add _ _ = .ok _ from rfl)
  have otherSession : Session second.2 [second.1] :=
    .enter .start (.combine (.literal 2) (.literal _) (show combine .add _ _ = .ok _ from rfl))
  have terminates : Everywhere Terminates first.1 :=
    Store.everywhere_terminates_enter (everywhere_output.mpr ⟨rfl, sum two tax⟩) [] {}
  have otherTerminates : Everywhere Terminates second.1 :=
    Store.everywhere_terminates_enter (sum two half) [] {}
  have same : settings.render first.1 = settings.render second.1 := by decide +kernel
  obtain ⟨terms, _⟩ := term_eq_of_render_eq session otherSession (List.mem_singleton_self _)
    (List.mem_singleton_self _) terminates otherTerminates 10 same
  exact ⟨session, otherSession, same, terms⟩

end ExactFormula
