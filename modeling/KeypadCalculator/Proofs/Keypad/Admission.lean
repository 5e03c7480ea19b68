import KeypadCalculator.Keypad.Session
import KeypadCalculator.Proofs.Keypad.Ending

/-!
What may follow a typed expression, as a table over its endings.
-/

namespace KeypadCalculator

open Text

namespace Ending

/-- What strict input lets follow an ending. -/
def allows : Ending → Continuation → Bool
  | .opened, next | .operator, next | .modulo, next => next.startsOperand
  | .whole, .decimal => true
  | .whole, next | .fraction, next =>
    next == .digit || next == .closeParen || next.isOperator
  | .closed, next => next.isOperator || next == .closeParen
  | _, _ => false

theorem endsWithModulo_append {c : Char} (h : c ≠ 'd') (text : List Char) :
    endsWithModulo (text ++ [c]) = false := by
  rw [endsWithModulo, Bool.eq_false_iff]
  intro hSuffix
  obtain ⟨front, hFront⟩ := List.isSuffixOf_iff_suffix.mp hSuffix
  have hLast := congrArg List.getLast? hFront
  rw [List.getLast?_concat] at hLast
  simp at hLast
  exact h hLast.symm

theorem admits_append_digit {c : Char} (h : isAsciiDigit c = true) (text next : List Char) :
    admits (text ++ [c]) next = match Continuation.ofText next with
      | .decimal => !endsWithDecimals (text ++ [c])
      | .digit | .closeParen => true
      | rest => rest.isOperator := by
  rw [admits, List.getLast?_concat]
  exact if_pos h

theorem admits_append_other {c : Char} (hDigit : isAsciiDigit c = false)
    (hOperator : isOperatorChar c = false) (hOpen : c ≠ '(') (hModulo : c ≠ 'd')
    (text next : List Char) :
    admits (text ++ [c]) next = (c == ')' &&
      ((Continuation.ofText next).isOperator || Continuation.ofText next == .closeParen)) := by
  simp only [admits, List.getLast?_concat, hDigit, hOperator, endsWithModulo_append hModulo]
  by_cases hClose : c = ')' <;> simp [hOpen, hClose]

/-- Whether a text is admitted behind an expression depends on its ending
alone. -/
theorem admits_eq_allows {text : List Char} {e : Ending} (h : of? text = some e)
    (next : List Char) : admits text next = e.allows (.ofText next) := by
  have hShows := shows_of? h
  rcases hShows.last with ⟨rfl, rfl⟩ | ⟨front, c, rfl, hLast⟩
  · rfl
  · cases e with
    | whole =>
        rw [admits_append_digit hLast, hShows.decimals]
        cases Continuation.ofText next <;> rfl
    | fraction =>
        rw [admits_append_digit hLast, hShows.decimals]
        cases Continuation.ofText next <;> rfl
    | operator =>
        have hOperator : isOperatorChar c = true := hLast
        have hDigit : isAsciiDigit c = false := isAsciiDigit_of_isOperatorChar hOperator
        simp [admits, hDigit, hOperator, allows]
    | modulo =>
        obtain rfl : c = 'd' := hLast
        have hModulo : endsWithModulo (front ++ ['d']) = true :=
          List.isSuffixOf_iff_suffix.mpr hShows.letters
        simp [admits, hModulo, isAsciiDigit, allows]
    | opened =>
        obtain rfl : c = '(' := hLast
        simp [admits, isAsciiDigit, allows]
    | closed | letterM | lettersMo | point =>
        cases hLast
        rw [admits_append_other (by decide) (by decide) (by decide) (by decide)]
        rfl

/-- The ending without a point that stands last. -/
def base : Ending → Ending
  | .point => .whole
  | e => e

theorem of?_base {text : List Char} {e : Ending} (h : of? text = some e) :
    of? (Session.base text) = some e.base := by
  have hShows := shows_of? h
  rcases hShows.last with ⟨rfl, rfl⟩ | ⟨front, c, rfl, hLast⟩
  · rfl
  · rw [Session.base, List.getLast?_concat, List.dropLast_concat]
    by_cases hPoint : c = '.'
    · subst hPoint
      obtain ⟨before, hBefore, hNext⟩ := exists_of_append_singleton h
      obtain ⟨rfl, rfl⟩ : before = .whole ∧ e = .point := by
        cases moves_of_next? hNext with
        | decimal => exact ⟨rfl, rfl⟩
        | digit hDigit _ => exact absurd hDigit (by decide)
        | operator hOp _ _ => cases hOp
      rw [if_pos rfl, hBefore]
      rfl
    · rw [if_neg (by simp [hPoint]), h]
      cases e <;> first | rfl | exact absurd hLast hPoint

end Ending

end KeypadCalculator
