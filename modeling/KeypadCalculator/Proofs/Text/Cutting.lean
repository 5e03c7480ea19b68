import KeypadCalculator.Text.Blank

/-!
Readings of a text that no part of goes across a blank. Such a reading is that of the
words of the text, one after the other, and neither the number nor the kind of the
blanks between them makes a difference.
-/

namespace KeypadCalculator.Text

variable {α : Type}

/-- A blank cuts what is read in two and is not read itself. -/
structure CutsAtBlanks (read : List Char → List α) : Prop where
  nil : read [] = []
  blank : ∀ {c : Char}, isBlank c = true → ∀ front rest : List Char,
    read (front ++ c :: rest) = read front ++ read rest

namespace CutsAtBlanks

variable {read : List Char → List α} (h : CutsAtBlanks read)
include h

theorem blanks_append {gap : List Char} (hGap : ∀ c ∈ gap, isBlank c = true)
    (rest : List Char) : read (gap ++ rest) = read rest := by
  induction gap with
  | nil => rfl
  | cons c gap ih =>
      obtain ⟨hC, hBehind⟩ := List.forall_mem_cons.mp hGap
      have hCut := h.blank hC [] (gap ++ rest)
      rw [List.nil_append, h.nil, List.nil_append] at hCut
      exact hCut.trans (ih hBehind)

/-- A row of blanks cuts like one of them. -/
theorem append_blanks {gap : List Char} (hSome : gap ≠ []) (hGap : ∀ c ∈ gap, isBlank c = true)
    (front rest : List Char) : read (front ++ (gap ++ rest)) = read front ++ read rest := by
  obtain ⟨c, gap, rfl⟩ := List.exists_cons_of_ne_nil hSome
  obtain ⟨hC, hBehind⟩ := List.forall_mem_cons.mp hGap
  rw [List.cons_append, h.blank hC, h.blanks_append hBehind]

theorem flatMap_word (run : List Char) : (word run).flatMap read = read run := by
  cases run with
  | nil => exact h.nil.symm
  | cons c run => simp [word]

theorem flatMap_wordsFrom (run text : List Char) :
    (wordsFrom run text).flatMap read = read (run ++ text) := by
  induction text generalizing run with
  | nil => rw [wordsFrom, h.flatMap_word, List.append_nil]
  | cons c rest ih =>
      rw [wordsFrom]
      split
      · rename_i hBlank
        rw [List.flatMap_append, h.flatMap_word, ih, List.nil_append, h.blank hBlank]
      · rw [ih, List.append_assoc, List.singleton_append]

/-- The words of a text are read one by one. -/
theorem flatMap_words (text : List Char) : (words text).flatMap read = read text :=
  h.flatMap_wordsFrom [] text

theorem intercalate (members : List (List Char)) :
    read ([' '].intercalate members) = members.flatMap read := by
  induction members with
  | nil => exact h.nil
  | cons first members ih =>
      cases members with
      | nil => simp
      | cons second members =>
          rw [List.intercalate_cons_cons, List.append_assoc, List.singleton_append,
            h.blank (by decide), ih]
          rfl

theorem collapse (text : List Char) : read (Text.collapse text) = read text := by
  rw [Text.collapse, h.intercalate, h.flatMap_words]

end CutsAtBlanks

end KeypadCalculator.Text
