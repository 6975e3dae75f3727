import ExactFormula.Formula.Build

/-!
# The first match of a rule and the node it replaces

A rule is tried on the nodes of a formula in pre-order: a node before its
operands, and operands from left to right.  The first node that it replaces is
rewritten, and every node above it is built anew around the replacement with
the value that it had.  `Replaces` says this of two formulas without saying how
the node was found.
-/

namespace ExactFormula
namespace Formula

mutual

/-- Replace the first node that the rule matches; outputs are entered and never matched. -/
def rewriteFirst? (rule : Formula → Option Formula) : Formula → Option Formula
  | literal id value => rule (literal id value)
  | constant id name value => rule (constant id name value)
  | output _ name inner => (rewriteFirst? rule inner).map (labelled name)
  | derived id op operands value =>
      match rule (derived id op operands value) with
      | some replacement => some replacement
      | none => (rewriteFirstOf? rule operands).map (ofValue op · value)

/-- Rewrite inside the first formula of a list that has a match. -/
def rewriteFirstOf? (rule : Formula → Option Formula) : List Formula → Option (List Formula)
  | [] => none
  | x :: rest =>
      match rewriteFirst? rule x with
      | some replacement => some (replacement :: rest)
      | none => (rewriteFirstOf? rule rest).map (x :: ·)

end

/-! ## Replacing one node -/

/--
One occurrence of a node gives way to a replacement, and every node above it is
built anew with the value that it had.
-/
inductive Replaces (node replacement : Formula) : Formula → Formula → Prop
  /-- The formula is the node itself. -/
  | root : Replaces node replacement node replacement
  /-- The node is part of what an output wraps. -/
  | inner
      {id : Option NodeId}
      {name : String}
      {x y : Formula} :
      Replaces node replacement x y →
      Replaces node replacement (output id name x) (labelled name y)
  /-- The node is part of an operand. -/
  | operand
      {id : Option NodeId}
      {op : Operator}
      {before after : List Formula}
      {value : Rat}
      {x y : Formula} :
      Replaces node replacement x y →
      Replaces node replacement
        (derived id op (before ++ x :: after) value)
        (ofValue op (before ++ y :: after) value)

mutual

/-- The first node that the rule matches, in pre-order. -/
def redex? (rule : Formula → Option Formula) : Formula → Option Formula
  | literal id value => (rule (literal id value)).map fun _ => literal id value
  | constant id name value => (rule (constant id name value)).map fun _ => constant id name value
  | output _ _ inner => redex? rule inner
  | derived id op operands value =>
      match rule (derived id op operands value) with
      | some _ => some (derived id op operands value)
      | none => redexOf? rule operands

/-- The first node that the rule matches in a list of formulas. -/
def redexOf? (rule : Formula → Option Formula) : List Formula → Option Formula
  | [] => none
  | x :: rest => (redex? rule x).or (redexOf? rule rest)

end

mutual

/-- Where nothing is rewritten, there is no node that the rule matches. -/
theorem redex?_eq_none
    {rule : Formula → Option Formula} :
    ∀ x : Formula, rewriteFirst? rule x = none → redex? rule x = none
  | literal id value, quiet => by
      have declined : rule (literal id value) = none := quiet
      simp [redex?, declined]
  | constant id name value, quiet => by
      have declined : rule (constant id name value) = none := quiet
      simp [redex?, declined]
  | output id name inner, quiet => by
      simp only [rewriteFirst?, Option.map_eq_none_iff] at quiet
      exact redex?_eq_none inner quiet
  | derived id op operands value, quiet => by
      unfold rewriteFirst? at quiet
      cases declined : rule (derived id op operands value) with
      | some replacement => simp [declined] at quiet
      | none =>
          simp only [declined, Option.map_eq_none_iff] at quiet
          simp [redex?, declined, redexOf?_eq_none operands quiet]

/-- The same for a list of formulas. -/
theorem redexOf?_eq_none
    {rule : Formula → Option Formula} :
    ∀ operands : List Formula, rewriteFirstOf? rule operands = none →
      redexOf? rule operands = none
  | [], _ => rfl
  | x :: rest, quiet => by
      unfold rewriteFirstOf? at quiet
      cases found : rewriteFirst? rule x with
      | some y => simp [found] at quiet
      | none =>
          simp only [found, Option.map_eq_none_iff] at quiet
          simp [redexOf?, redex?_eq_none x found, redexOf?_eq_none rest quiet]

end

mutual

/-- Rewriting the first match replaces the first node that the rule matches. -/
theorem replaces_of_rewriteFirst?
    {rule : Formula → Option Formula} :
    ∀ (x : Formula) {y : Formula}, rewriteFirst? rule x = some y →
      ∃ node replacement, redex? rule x = some node ∧ rule node = some replacement ∧
        Replaces node replacement x y
  | literal id value, y, rewritten => by
      have matched : rule (literal id value) = some y := rewritten
      exact ⟨_, y, by simp [redex?, matched], matched, .root⟩
  | constant id name value, y, rewritten => by
      have matched : rule (constant id name value) = some y := rewritten
      exact ⟨_, y, by simp [redex?, matched], matched, .root⟩
  | output id name inner, _, rewritten => by
      simp only [rewriteFirst?, Option.map_eq_some_iff] at rewritten
      obtain ⟨rebuilt, found, rfl⟩ := rewritten
      obtain ⟨node, replacement, first, matched, replaces⟩ :=
        replaces_of_rewriteFirst? inner found
      exact ⟨node, replacement, first, matched, .inner replaces⟩
  | derived id op operands value, y, rewritten => by
      unfold rewriteFirst? at rewritten
      cases matched : rule (derived id op operands value) with
      | some replacement =>
          simp only [matched, Option.some.injEq] at rewritten
          subst rewritten
          exact ⟨_, replacement, by simp [redex?, matched], matched, .root⟩
      | none =>
          simp only [matched, Option.map_eq_some_iff] at rewritten
          obtain ⟨rebuilt, found, rfl⟩ := rewritten
          obtain ⟨before, x, after, z, node, replacement, rfl, rfl, first, applied, replaces⟩ :=
            replaces_of_rewriteFirstOf? operands found
          exact ⟨node, replacement, by simp [redex?, matched, first], applied,
            .operand replaces⟩

/-- Rewriting inside the first formula of a list that has a match leaves the others alone. -/
theorem replaces_of_rewriteFirstOf?
    {rule : Formula → Option Formula} :
    ∀ (operands : List Formula) {rebuilt : List Formula},
      rewriteFirstOf? rule operands = some rebuilt →
        ∃ before x after y node replacement,
          operands = before ++ x :: after ∧ rebuilt = before ++ y :: after ∧
          redexOf? rule operands = some node ∧ rule node = some replacement ∧
          Replaces node replacement x y
  | [], _, rewritten => by simp [rewriteFirstOf?] at rewritten
  | x :: rest, _, rewritten => by
      unfold rewriteFirstOf? at rewritten
      cases found : rewriteFirst? rule x with
      | some y =>
          simp only [found, Option.some.injEq] at rewritten
          subst rewritten
          obtain ⟨node, replacement, first, matched, replaces⟩ :=
            replaces_of_rewriteFirst? x found
          exact ⟨[], x, rest, y, node, replacement, rfl, rfl, by simp [redexOf?, first],
            matched, replaces⟩
      | none =>
          simp only [found, Option.map_eq_some_iff] at rewritten
          obtain ⟨rebuilt, inRest, rfl⟩ := rewritten
          obtain ⟨before, z, after, y, node, replacement, rfl, rfl, first, matched, replaces⟩ :=
            replaces_of_rewriteFirstOf? rest inRest
          have quiet : redex? rule x = none := redex?_eq_none x found
          exact ⟨x :: before, z, after, y, node, replacement, rfl, rfl,
            by simp [redexOf?, quiet, first], matched, replaces⟩

end

end Formula
end ExactFormula
