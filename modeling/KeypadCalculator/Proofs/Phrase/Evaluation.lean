import KeypadCalculator.Proofs.Phrase.Descent
import KeypadCalculator.Proofs.Phrase.Postorder
import KeypadCalculator.Proofs.Token.Literal
import KeypadCalculator.Proofs.Token.Splitting

/-!
Evaluating a well-formed expression is reading it by recursive descent.
-/

namespace KeypadCalculator

theorem evaluate_outcome (text : List Char) :
    (evaluate text).outcome = evaluateTokens (Token.ofText text) := by
  rw [evaluate, Token.ofText_collapse]

theorem Evaluation.exists_outcome {e : Evaluation} (h : e.value?.isSome = true) :
    ∃ value, e.outcome = .ok value := by
  rw [value?] at h
  cases hOutcome : e.outcome with
  | error fault =>
      rw [hOutcome] at h
      cases h
  | ok value => exact ⟨value, rfl⟩

/-- Whatever blanks and meaningless characters a text has, if its tokens are in
the grammar, it comes to the value or to the fault that recursive descent finds
in them. -/
theorem evaluate_eq_descent {text : List Char} (h : Derives .sentence (Token.ofText text)) :
    Descent.run (Token.ofText text) = Descent.Reading.ofOutcome (evaluate text).outcome := by
  obtain ⟨tree, hTree, hTokens⟩ := h.exists_phrase
  rw [evaluate_outcome, ← hTokens, Descent.run_tokens hTree, Phrase.evaluateTokens_tokens hTree]

/-- The negated group of `2 × -(7 mod 3) + 1`, with the grammar's derivation. -/
theorem evaluate_eq_descent_negated_group :
    Derives .sentence (Token.ofText "2 × -(7 mod 3) + 1".toList) ∧
      Descent.run (Token.ofText "2 × -(7 mod 3) + 1".toList) =
        Descent.Reading.ofOutcome (evaluate "2 × -(7 mod 3) + 1".toList).outcome := by
  have hLiteral {signed : Bool} (c : Char) (hDigit : Text.isAsciiDigit c = true) :
      Derives (.operand signed) [.number [c]] :=
    .literal (value?_isSome_of_digit hDigit (by simp [IsLiteralChar, hDigit]))
  have hGroup : Derives .sentence [.number ['7'], .operator .modulo, .number ['3']] :=
    .binary (.operand (hLiteral '7' (by decide))) (hLiteral '3' (by decide))
  have hNegated : Derives (.operand true) (.operator .subtract :: .openParen ::
      ([Token.number ['7'], Token.operator .modulo, Token.number ['3']] ++
        [Token.closeParen])) :=
    .negated (.group hGroup)
  have hTokens : Token.ofText "2 × -(7 mod 3) + 1".toList =
      ([Token.number ['2']] ++ Token.operator .multiply :: Token.operator .subtract ::
        Token.openParen :: ([Token.number ['7'], Token.operator .modulo, Token.number ['3']] ++
          [Token.closeParen])) ++ Token.operator .add :: [Token.number ['1']] := by decide
  have hSentence : Derives .sentence (Token.ofText "2 × -(7 mod 3) + 1".toList) := by
    rw [hTokens]
    exact .binary (.binary (.operand (hLiteral '2' (by decide))) hNegated)
      (hLiteral '1' (by decide))
  exact ⟨hSentence, evaluate_eq_descent hSentence⟩

end KeypadCalculator
