import ExactFormula.Text.Blank
import Mathlib.Data.List.TakeWhile

/-!
# Trimmed texts

Trimming takes away all blanks at the two ends of a text, and nothing else.
-/

namespace ExactFormula
namespace Text

/-- A text is another one with blanks around it, and has none at its own ends. -/
structure IsTrimmed (text trimmed : List Char) : Prop where
  /-- What stands around the trimmed text is blank. -/
  around : ∃ before after, text = before ++ (trimmed ++ after) ∧
    (∀ c ∈ before, isBlank c = true) ∧ ∀ c ∈ after, isBlank c = true
  /-- No blank stands in front. -/
  front : ∀ c ∈ trimmed.head?, isBlank c = false
  /-- No blank stands at the end. -/
  back : ∀ c ∈ trimmed.getLast?, isBlank c = false

theorem head?_dropWhile_isBlank (text : List Char) :
    ∀ c ∈ (text.dropWhile isBlank).head?, isBlank c = false := by
  intro c first
  have unblank := List.head?_dropWhile_not isBlank text
  rw [Option.mem_def.mp first] at unblank
  exact unblank

theorem dropWhile_isBlank_append
    {before rest : List Char}
    (blank : ∀ c ∈ before, isBlank c = true)
    (front : ∀ c ∈ rest.head?, isBlank c = false) :
    (before ++ rest).dropWhile isBlank = rest := by
  rw [List.dropWhile_append_of_pos blank]
  cases rest with
  | nil => rfl
  | cons c rest => exact List.dropWhile_cons_of_neg (by simp [front c rfl])

theorem isTrimmed_trim (text : List Char) : IsTrimmed text (trim text) := by
  have split : text.dropWhile isBlank =
      trim text ++ ((text.dropWhile isBlank).reverse.takeWhile isBlank).reverse := by
    rw [trim, ← List.reverse_append, List.takeWhile_append_dropWhile, List.reverse_reverse]
  refine ⟨⟨text.takeWhile isBlank, ((text.dropWhile isBlank).reverse.takeWhile isBlank).reverse,
    ?_, ?_, ?_⟩, ?_, ?_⟩
  · rw [← split, List.takeWhile_append_dropWhile]
  · exact fun c member => List.mem_takeWhile_imp member
  · exact fun c member => List.mem_takeWhile_imp (List.mem_reverse.mp member)
  · intro c first
    refine head?_dropWhile_isBlank text c ?_
    rw [split, List.head?_append, Option.mem_def.mp first]
    rfl
  · rw [trim, List.getLast?_reverse]
    exact head?_dropWhile_isBlank _

/-- A text has one trimmed text. -/
theorem isTrimmed_iff {text trimmed : List Char} :
    IsTrimmed text trimmed ↔ trim text = trimmed := by
  refine ⟨?_, fun same => same ▸ isTrimmed_trim text⟩
  rintro ⟨⟨before, after, rfl, blankBefore, blankAfter⟩, front, back⟩
  cases trimmed with
  | nil =>
      have blank : ∀ c ∈ before ++ after, isBlank c = true := by
        intro c member
        exact (List.mem_append.mp member).elim (blankBefore c) (blankAfter c)
      rw [List.nil_append, trim, List.dropWhile_eq_nil_iff.mpr blank]
      rfl
  | cons first rest =>
      have blankReversed : ∀ c ∈ after.reverse, isBlank c = true :=
        fun c member => blankAfter c (List.mem_reverse.mp member)
      have unblankFront : ∀ c ∈ (first :: rest ++ after).head?, isBlank c = false := front
      have unblankBack : ∀ c ∈ (first :: rest).reverse.head?, isBlank c = false := by
        rw [List.head?_reverse]
        exact back
      rw [trim, dropWhile_isBlank_append blankBefore unblankFront, List.reverse_append,
        dropWhile_isBlank_append blankReversed unblankBack, List.reverse_reverse]

end Text
end ExactFormula
