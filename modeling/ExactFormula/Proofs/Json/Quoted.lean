import ExactFormula.Json.Basic

/-!
# Quoted texts

A text without quotes, backslashes and control characters is a JSON string when
quotes are put around it, and means itself there.
-/

namespace ExactFormula
namespace Json

/-- A character that stands for itself in a JSON string. -/
def IsUnescaped (c : Char) : Prop :=
  c ≠ '"' ∧ c ≠ '\\' ∧ 0x20 ≤ c.toNat

variable {text : List Char}

theorem scanString?_append_quote
    (unescaped : ∀ c ∈ text, IsUnescaped c)
    (after : List Char) :
    scanString? (text ++ '"' :: after) = some (text, after) := by
  induction text with
  | nil => simp [scanString?]
  | cons c rest inductionHypothesis =>
      rw [List.forall_mem_cons] at unescaped
      obtain ⟨⟨noQuote, noBackslash, noControl⟩, others⟩ := unescaped
      have scanned := inductionHypothesis others
      rw [List.cons_append]
      unfold scanString?
      split <;> simp_all

/-- A text without escapes stands for itself. -/
theorem decode?_eq_self (unescaped : ∀ c ∈ text, IsUnescaped c) : decode? text = some text := by
  induction text with
  | nil => simp [decode?]
  | cons c rest inductionHypothesis =>
      rw [List.forall_mem_cons] at unescaped
      obtain ⟨⟨noQuote, noBackslash, noControl⟩, others⟩ := unescaped
      have decoded := inductionHypothesis others
      unfold decode?
      split <;> simp_all

/-- Quotes make a JSON string of the text. -/
theorem parse?_quoted (unescaped : ∀ c ∈ text, IsUnescaped c) :
    parse? ('"' :: text ++ ['"']) = some (.string text) := by
  have scanned := scanString?_append_quote unescaped []
  have tokens : tokens? ('"' :: text ++ ['"']) = some [.string text] := by
    rw [List.cons_append, tokens?, if_neg (by decide), if_pos rfl]
    split
    · rename_i spelling after found
      rw [scanned, Option.some.injEq, Prod.mk.injEq] at found
      obtain ⟨rfl, rfl⟩ := found
      simp [tokens?]
    · rename_i none
      simp [scanned] at none
  rw [parse?, tokens]
  rfl

end Json
end ExactFormula
