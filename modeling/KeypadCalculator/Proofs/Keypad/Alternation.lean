import KeypadCalculator.Proofs.Keypad.StrictTyping
import KeypadCalculator.Proofs.Phrase.Arity
import KeypadCalculator.Proofs.Phrase.Evaluation

/-!
In what is typed in strict mode, operands and operators take turns: no operator
lacks an operand once the expression is complete.
-/

namespace KeypadCalculator

open Text

/-- A literal that begins with a digit. -/
def BeginsWithDigit (run : List Char) : Prop :=
  ∃ d rest, run = d :: rest ∧ isAsciiDigit d = true ∧ ∀ c ∈ run, IsLiteralChar c

theorem BeginsWithDigit.append {run : List Char} (h : BeginsWithDigit run) {c : Char}
    (hChar : IsLiteralChar c) : BeginsWithDigit (run ++ [c]) := by
  obtain ⟨d, rest, rfl, hDigit, hLiteral⟩ := h
  refine ⟨d, rest ++ [c], rfl, hDigit, fun other hMem => ?_⟩
  rcases List.mem_append.mp hMem with hMem | hMem
  · exact hLiteral other hMem
  · exact List.mem_singleton.mp hMem ▸ hChar

namespace Ending

/-- The part of a literal that was gathered so far, and the position of the
tokens in front of it, at an ending. -/
def Gathers : Ending → List Char → Position → Prop
  | .opened, run, p => run = [] ∧ p = .start
  | .operator, run, p => run = [] ∧ (p = .operator ∨ p = .percent)
  | .modulo, run, p => run = [] ∧ p = .operator
  | .whole, run, p | .point, run, p | .fraction, run, p =>
    p ≠ .ended ∧ BeginsWithDigit run
  | .closed, run, p => run = [] ∧ p = .ended
  | .letterM, _, _ | .lettersMo, _, _ => False

/-- The position once the literal has ended. -/
def flushed (e : Ending) (p : Position) : Position :=
  if e.awaitsOperand then p else .ended

theorem flushed_of_endsOperand {e : Ending} (h : e.endsOperand = true) (p : Position) :
    e.flushed p = .ended := by
  cases e <;> first | rfl | cases h

theorem Gathers.ofRun {e : Ending} {run : List Char} {p : Position} (h : e.Gathers run p) :
    (Token.ofRun run).foldlM Position.next? p = some (e.flushed p) := by
  cases e with
  | whole | point | fraction =>
      obtain ⟨hOpen, d, rest, rfl, hDigit, hLiteral⟩ := h
      have hValue := value?_isSome_of_digit hDigit hLiteral
      cases p <;> simp_all [Token.ofRun, Position.next?, flushed, awaitsOperand]
  | letterM | lettersMo => cases h
  | _ =>
      obtain ⟨rfl, hPosition⟩ := h
      simp_all [Token.ofRun, flushed, awaitsOperand]

/-- A token ends the literal in front of it. -/
theorem Gathers.token {e : Ending} {run : List Char} {p : Position} (h : e.Gathers run p)
    {glyph : Glyph} {token : Token} (hRole : glyph.role = .token token) (rest : List Glyph) :
    (Token.gather run (glyph :: rest)).foldlM Position.next? p =
      ((e.flushed p).next? token).bind ((Token.gather [] rest).foldlM Position.next?) := by
  rw [Token.gather, hRole]
  simp only [List.foldlM_append, h.ofRun, List.foldlM_cons]
  rfl

theorem Gathers.ne_ended {e : Ending} {run : List Char} {p : Position} (h : e.Gathers run p)
    (hAwaits : e.awaitsOperand = true) : run = [] ∧ p ≠ .ended := by
  cases e with
  | opened | operator | modulo =>
      obtain ⟨rfl, hPosition⟩ := h
      refine ⟨rfl, ?_⟩
      rintro rfl
      simp at hPosition
  | _ => cases hAwaits

/-- A digit continues the literal at the end, or begins one. -/
theorem Gathers.digit {e next : Ending} {run : List Char} {p : Position} (h : e.Gathers run p)
    {c : Char} (hDigit : isAsciiDigit c = true) (hMove : e.move? .digit = some next) :
    next.Gathers (run ++ [c]) p := by
  cases e with
  | opened | operator | modulo =>
      cases hMove
      obtain ⟨rfl, hPosition⟩ := h.ne_ended rfl
      exact ⟨hPosition, c, [], rfl, hDigit, List.forall_mem_singleton.mpr (.inl hDigit)⟩
  | whole | point | fraction =>
      cases hMove
      exact ⟨h.1, h.2.append (.inl hDigit)⟩
  | _ => cases hMove

/-- The position behind an operator character, where no literal has begun yet. -/
theorem Gathers.operator {e : Ending} {run : List Char} {p : Position} (h : e.Gathers run p)
    {glyph : Glyph} {op : Operator} (hRole : glyph.role = .token (.operator op))
    (hNext : e.endsOperand = true ∨ e.takesSign = true ∧ op = .subtract) (rest : List Glyph) :
    ∃ q, Ending.operator.Gathers [] q ∧
      (Token.gather run (glyph :: rest)).foldlM Position.next? p =
        (Token.gather [] rest).foldlM Position.next? q := by
  rw [h.token hRole]
  rcases hNext with hEnds | ⟨hSign, rfl⟩
  · rw [flushed_of_endsOperand hEnds]
    refine ⟨_, ⟨rfl, ?_⟩, rfl⟩
    by_cases hPercent : op = .percent <;> simp [hPercent]
  · cases e with
    | opened | modulo =>
        obtain ⟨rfl, rfl⟩ := h
        exact ⟨.operator, ⟨rfl, .inl rfl⟩, rfl⟩
    | _ => cases hSign

/-- Typed text moves its tokens along the positions, and they end with an
operand if the text does not await one. -/
theorem Gathers.run {e last : Ending} {run text : List Char} {p : Position} (h : e.Gathers run p)
    (hRun : text.foldlM next? e = some last) :
    ∃ q, (Token.gather run (Glyph.ofText text)).foldlM Position.next? p = some q ∧
      (q = .ended ↔ last.awaitsOperand = false) := by
  fun_induction Glyph.ofText text generalizing e run p with
  | case1 rest ih =>
      obtain ⟨hEnds, hRest⟩ := run_modulo hRun
      rw [h.token rfl, flushed_of_endsOperand hEnds]
      have hModulo : modulo.Gathers [] .operator := ⟨rfl, rfl⟩
      exact ih hModulo hRest
  | case2 c rest hOther ih =>
      rw [List.foldlM_cons] at hRun
      obtain ⟨next, hNext, hRest⟩ := Option.bind_eq_some_iff.mp hRun
      cases moves_of_next? hNext with
      | digit hDigit hMove =>
          rw [Token.gather, Glyph.role_digit hDigit]
          exact ih (h.digit hDigit hMove) hRest
      | decimal =>
          have hPoint : point.Gathers (run ++ ['.']) p := ⟨h.1, h.2.append (.inr rfl)⟩
          exact ih hPoint hRest
      | minus hFront =>
          have hSign := (Bool.or_eq_true _ _).mp hFront
          have hRole : Glyph.role (.character '-') = .token (.operator .subtract) := by decide
          obtain ⟨q, hOperator, hStep⟩ :=
            h.operator hRole (hSign.imp_right fun hSign => ⟨hSign, rfl⟩) (Glyph.ofText rest)
          rw [hStep]
          exact ih hOperator hRest
      | operator hOp _ hEnds =>
          obtain ⟨q, hOperator, hStep⟩ :=
            h.operator (Glyph.role_operator hOp) (.inl hEnds) (Glyph.ofText rest)
          rw [hStep]
          exact ih hOperator hRest
      | openParen hAwaits =>
          obtain ⟨rfl, hPosition⟩ := h.ne_ended hAwaits
          have hStep : (e.flushed p).next? .openParen = some .start := by
            rw [flushed, if_pos hAwaits]
            cases p <;> first | rfl | exact absurd rfl hPosition
          have hRole : Glyph.role (.character '(') = .token .openParen := by decide
          rw [h.token hRole, hStep]
          have hOpened : opened.Gathers [] .start := ⟨rfl, rfl⟩
          exact ih hOpened hRest
      | closeParen hEnds =>
          have hRole : Glyph.role (.character ')') = .token .closeParen := by decide
          rw [h.token hRole, flushed_of_endsOperand hEnds]
          have hClosed : closed.Gathers [] .ended := ⟨rfl, rfl⟩
          exact ih hClosed hRest
      | letterM hEnds =>
          -- The letters of an unfinished modulo operator leave the literal open.
          obtain ⟨hRest, hLast⟩ := run_letterM hRest fun tail hTail => hOther tail rfl hTail
          have hSkip : Token.gather run (.character 'm' :: Glyph.ofText rest) =
              Token.ofRun run := by
            rcases hRest with rfl | rfl <;> rfl
          rw [hSkip, h.ofRun, flushed_of_endsOperand hEnds]
          exact ⟨.ended, rfl, by simp [hLast]⟩
      | lettersMo => cases h
      | modulo => cases h
  | case3 =>
      obtain rfl : e = last := Option.some.inj hRun
      refine ⟨e.flushed p, h.ofRun, ?_⟩
      cases hAwaits : e.awaitsOperand with
      | false => simp [flushed, hAwaits]
      | true => simp [flushed, hAwaits, (h.ne_ended hAwaits).2]

theorem exists_position {text : List Char} {e : Ending} (h : of? text = some e) :
    ∃ q, (Token.ofText text).foldlM Position.next? .start = some q ∧
      (q = .ended ↔ e.awaitsOperand = false) := by
  have hStart : opened.Gathers [] .start := ⟨rfl, rfl⟩
  exact hStart.run h

end Ending

/-- A row of tokens has come to the end of an operand when its last token ends an
expression. -/
theorem Position.ended_iff_getLast? {tokens : List Token} {q : Position}
    (h : tokens.foldlM Position.next? .start = some q) :
    q = .ended ↔ tokens.getLast?.any endsExpression = true := by
  rcases List.eq_nil_or_concat tokens with rfl | ⟨front, last, rfl⟩
  · obtain rfl : Position.start = q := Option.some.inj h
    simp
  · rw [List.concat_eq_append, List.foldlM_append] at h
    obtain ⟨p, -, hLast⟩ := Option.bind_eq_some_iff.mp h
    have hNext : p.next? last = some q := by simpa using hLast
    rw [List.concat_eq_append, List.getLast?_concat, Option.any_some]
    cases last with
    | number digits =>
        obtain ⟨-, rfl, hValue⟩ := Position.next?_number hNext
        simp [endsExpression, hValue]
    | operator op =>
        rcases Position.next?_operator hNext with ⟨-, rfl⟩ | ⟨-, -, rfl⟩
        · by_cases hPercent : op = .percent <;> simp [hPercent, endsExpression, Token.value?]
        · simp [endsExpression, Token.value?]
    | openParen =>
        obtain ⟨-, rfl⟩ := Position.next?_openParen hNext
        simp [endsExpression, Token.value?]
    | closeParen =>
        obtain ⟨-, rfl⟩ := Position.next?_closeParen hNext
        simp [endsExpression]

/-- Whatever keys are pressed in strict mode, an expression that is complete comes
to a number, or fails for a reason that lies in its numbers. -/
theorem outcome_of_isComplete_strict {keys : List Key} (hKeys : ∀ key ∈ keys, key.IsAscii)
    (hComplete : isComplete (Session.new.pressAll keys .strict).expression = true) :
    (∃ value, (evaluate (Session.new.pressAll keys .strict).expression).outcome = .ok value) ∨
      ∃ fault, (evaluate (Session.new.pressAll keys .strict).expression).outcome = .error fault ∧
        (fault = .divisionByZero ∨ fault = .moduloByZero ∨ fault = .notFinite) := by
  obtain ⟨e, hEnding⟩ := Session.isTyped_new hKeys
  obtain ⟨q, hPosition, -⟩ := Ending.exists_position hEnding
  rw [isComplete, Bool.and_eq_true] at hComplete
  obtain rfl : q = .ended := (Position.ended_iff_getLast? hPosition).mpr hComplete.2
  rw [evaluate_outcome]
  cases hOutcome : evaluateTokens (Token.ofText (Session.new.pressAll keys .strict).expression) with
  | ok value => exact .inl ⟨value, rfl⟩
  | error fault =>
      refine .inr ⟨fault, rfl, ?_⟩
      rcases evaluateTokens_of_alternates hPosition hOutcome with (hDivision | hModulo) | hFinite
      · exact .inl hDivision
      · exact .inr (.inl hModulo)
      · exact .inr (.inr hFinite)

/-- The keys of `5+×(2.)`, where one operator takes the place of the other. -/
theorem outcome_of_isComplete_strict_replaced :
    (∀ key ∈ Key.ofTyping true "5+×(2.)".toList, key.IsAscii) ∧
      isComplete (Session.new.pressAll (Key.ofTyping true "5+×(2.)".toList) .strict).expression =
        true ∧
      ((∃ value, (evaluate (Session.new.pressAll
          (Key.ofTyping true "5+×(2.)".toList) .strict).expression).outcome = .ok value) ∨
        ∃ fault, (evaluate (Session.new.pressAll
            (Key.ofTyping true "5+×(2.)".toList) .strict).expression).outcome = .error fault ∧
          (fault = .divisionByZero ∨ fault = .moduloByZero ∨ fault = .notFinite)) := by
  have hKeys := Key.isAscii_of_mem_ofTyping true "5+×(2.)".toList
  have hComplete : isComplete
      (Session.new.pressAll (Key.ofTyping true "5+×(2.)".toList) .strict).expression = true := by
    decide
  exact ⟨hKeys, hComplete, outcome_of_isComplete_strict hKeys hComplete⟩

end KeypadCalculator
