import KeypadCalculator.Keypad.Admission
import KeypadCalculator.Proofs.Phrase.Evaluation

/-!
Blanks separate and do nothing else. A row of them cuts a text in two for the words
and for the tokens alike, so that an expression evaluates as the words of it with
one space between them, and collapsing these once more changes nothing.
-/

namespace KeypadCalculator

namespace Text

theorem wordsFrom_append_blank {c : Char} (h : isBlank c = true) (run front rest : List Char) :
    wordsFrom run (front ++ c :: rest) = wordsFrom run front ++ wordsFrom [] rest := by
  induction front generalizing run with
  | nil => simp [wordsFrom, h]
  | cons d front ih =>
      rw [List.cons_append, wordsFrom, wordsFrom]
      split
      · rw [ih, List.append_assoc]
      · exact ih (run ++ [d])

theorem cutsAtBlanks_words : CutsAtBlanks words :=
  ⟨rfl, fun h => wordsFrom_append_blank h []⟩

/-- A collapsed text has the words of the text it came from. -/
theorem collapse_collapse (text : List Char) : collapse (collapse text) = collapse text := by
  rw [collapse, cutsAtBlanks_words.collapse, ← collapse]

end Text

open Text

theorem isComplete_collapse (text : List Char) :
    isComplete (collapse text) = isComplete text := by
  rw [isComplete, isComplete, Token.ofText_collapse]

/-- A collapsed expression evaluates like the text it came from, and reports itself. -/
theorem evaluate_collapse (text : List Char) : evaluate (collapse text) = evaluate text := by
  rw [evaluate, evaluate, collapse_collapse]

/-- A row of blanks only separates what is around it. So a text has the tokens of its
words, and its value, its display, its fault and whether it is complete can be read
off the collapsed expression. -/
theorem blanks_only_separate :
    (∀ front gap rest : List Char, gap ≠ [] → (∀ c ∈ gap, isBlank c = true) →
        Token.ofText (front ++ (gap ++ rest)) = Token.ofText front ++ Token.ofText rest) ∧
      ∀ text : List Char, (evaluate text).expression = collapse text ∧
        Token.ofText (collapse text) = Token.ofText text ∧
        evaluate (collapse text) = evaluate text ∧
        isComplete (collapse text) = isComplete text :=
  ⟨fun front _ rest hSome hBlank => Token.ofText_append_blanks hSome hBlank front rest,
    fun text => ⟨rfl, Token.ofText_collapse text, evaluate_collapse text,
      isComplete_collapse text⟩⟩

/-- An ideographic space and a line feed cut the letters of `mod` apart, and then
neither part is an operator. -/
theorem blanks_only_separate_letters :
    let gap := ['\u3000', '\n']
    gap ≠ [] ∧ (∀ c ∈ gap, isBlank c = true) ∧
      Token.ofText ("10m".toList ++ (gap ++ "od3".toList)) =
        Token.ofText "10m".toList ++ Token.ofText "od3".toList := by
  intro gap
  have hSome : gap ≠ [] := by decide
  have hBlank : ∀ c ∈ gap, isBlank c = true := List.all_eq_true.1 (by decide)
  exact ⟨hSome, hBlank, blanks_only_separate.1 "10m".toList gap "od3".toList hSome hBlank⟩

end KeypadCalculator
