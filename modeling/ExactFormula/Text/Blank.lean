/-!
# Blank characters

The white space of Unicode, and the removal of it from both ends of a text.
-/

namespace ExactFormula
namespace Text

/-- The code points that have the Unicode property `White_Space`, as inclusive ranges. -/
def blankRanges : List (Nat × Nat) :=
  [(0x0009, 0x000D), (0x0020, 0x0020), (0x0085, 0x0085), (0x00A0, 0x00A0),
    (0x1680, 0x1680), (0x2000, 0x200A), (0x2028, 0x2029), (0x202F, 0x202F),
    (0x205F, 0x205F), (0x3000, 0x3000)]

/-- A character is blank when one of the ranges holds its code point. -/
def isBlank (c : Char) : Bool :=
  blankRanges.any fun range => range.1 ≤ c.toNat && c.toNat ≤ range.2

/-- The text without the blanks at its two ends. -/
def trim (text : List Char) : List Char :=
  ((text.dropWhile isBlank).reverse.dropWhile isBlank).reverse

/--
Cut a text at the first character that satisfies the test, and leave that
character out.  There is no cut when no character satisfies it.
-/
def cutAt
    (test : Char → Bool) :
    List Char → Option (List Char × List Char)
  | [] => none
  | c :: rest =>
      if test c then some ([], rest)
      else (cutAt test rest).map fun cut => (c :: cut.1, cut.2)

@[simp] theorem cutAt_nil (test : Char → Bool) : cutAt test [] = none := rfl

theorem cutAt_cons
    (test : Char → Bool)
    (c : Char)
    (rest : List Char) :
    cutAt test (c :: rest) =
      if test c then some ([], rest)
      else (cutAt test rest).map fun cut => (c :: cut.1, cut.2) := rfl

/-- A text is left whole exactly when none of its characters passes the test. -/
theorem cutAt_eq_none_iff
    {test : Char → Bool}
    {text : List Char} :
    cutAt test text = none ↔ ∀ c ∈ text, test c = false := by
  induction text with
  | nil => simp
  | cons c rest inductionHypothesis =>
      cases passes : test c <;> simp [cutAt_cons, passes, inductionHypothesis]

/-- The cut falls before the first character that passes the test. -/
theorem cutAt_eq_some_iff
    {test : Char → Bool}
    {text left right : List Char} :
    cutAt test text = some (left, right) ↔
      (∀ c ∈ left, test c = false) ∧
        ∃ mark, test mark = true ∧ text = left ++ mark :: right := by
  induction text generalizing left with
  | nil => simp
  | cons c rest inductionHypothesis =>
      cases passes : test c with
      | true =>
          rw [cutAt_cons, if_pos passes]
          constructor
          · intro equal
            simp only [Option.some.injEq, Prod.mk.injEq] at equal
            obtain ⟨rfl, rfl⟩ := equal
            exact ⟨by simp, c, passes, rfl⟩
          · rintro ⟨unmarked, mark, marked, equal⟩
            cases left with
            | nil => simp_all
            | cons first others =>
                simp only [List.cons_append, List.cons.injEq] at equal
                have := unmarked first (by simp)
                simp_all
      | false =>
          rw [cutAt_cons, if_neg (by simp [passes]), Option.map_eq_some_iff]
          constructor
          · rintro ⟨⟨before, after⟩, found, equal⟩
            simp only [Prod.mk.injEq] at equal
            obtain ⟨rfl, rfl⟩ := equal
            obtain ⟨unmarked, mark, marked, rfl⟩ := inductionHypothesis.1 found
            refine ⟨?_, mark, marked, rfl⟩
            simpa [passes] using unmarked
          · rintro ⟨unmarked, mark, marked, equal⟩
            cases left with
            | nil => simp_all
            | cons first others =>
                simp only [List.cons_append, List.cons.injEq] at equal
                obtain ⟨rfl, rfl⟩ := equal
                refine ⟨(others, right), inductionHypothesis.2 ⟨?_, mark, marked, rfl⟩, rfl⟩
                intro d member
                exact unmarked d (by simp [member])

end Text
end ExactFormula
