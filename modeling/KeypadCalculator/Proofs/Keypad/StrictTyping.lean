import KeypadCalculator.Proofs.Keypad.Admission

/-!
Typing in strict mode. Every key press keeps an expression that can be read from
one ending to the next, whatever was replaced or taken off before, and a key that
the ending lets follow is appended as it is.
-/

namespace KeypadCalculator

open Text

/-- A digit key carries an ASCII digit. -/
def Key.IsAscii : Key → Prop
  | .digit c => isAsciiDigit c = true
  | _ => True

theorem Key.isAsciiDigit_of_ofChar? {ascii : Bool} {c d : Char}
    (h : ofChar? ascii c = some (.digit d)) : isAsciiDigit d = true := by
  rw [ofChar?] at h
  split at h
  · rename_i hDigit
    obtain rfl : c = d := by simpa using h
    exact hDigit
  · -- No other branch presses a digit key.
    repeat' split at h
    all_goals simp at h

theorem Key.isAscii_of_mem_ofTyping (ascii : Bool) (typed : List Char) :
    ∀ key ∈ ofTyping ascii typed, key.IsAscii := by
  intro key hMem
  obtain ⟨glyph, -, hGlyph⟩ := List.mem_filterMap.mp hMem
  cases key with
  | digit c =>
      cases glyph with
      | modulo => cases hGlyph
      | character d => exact isAsciiDigit_of_ofChar? hGlyph
  | _ => trivial

namespace Ending

theorem ofText_of_isAsciiDigit {c : Char} (h : isAsciiDigit c = true) :
    Continuation.ofText [c] = .digit := by
  have hReads := Continuation.reads_ofText c
  generalize Continuation.ofText [c] = kind at hReads
  cases hReads with
  | digit => rfl
  | operator hOp _ =>
      have hOther := isOperatorChar_of_isAsciiDigit h
      rw [isOperatorChar, hOp] at hOther
      cases hOther
  | other hDigit _ => exact absurd (h.symm.trans hDigit) (by decide)
  | _ => exact absurd h (by decide)

theorem exists_next_digit {e : Ending} {c : Char} (hDigit : isAsciiDigit c = true)
    (h : e.base.allows .digit = true) : ∃ next, e.next? c = some next := by
  rw [next?, ofText_of_isAsciiDigit hDigit]
  cases e <;> first | exact ⟨_, rfl⟩ | cases h

/-- Whatever operator is admitted can be read, unless it would stand directly
behind an operator character. -/
theorem exists_run_symbol {e : Ending} {op : Operator} (hOperator : e ≠ .operator)
    (h : e.base.allows (.ofText op.symbol) = true) :
    ∃ next, op.symbol.foldlM next? e = some next := by
  cases op <;> cases e <;> first | exact ⟨_, rfl⟩ | exact absurd rfl hOperator | cases h

theorem allows_symbol {e next : Ending} {op : Operator}
    (h : op.symbol.foldlM next? e = some next) : e.base.allows (.ofText op.symbol) = true := by
  cases op <;> cases e <;> first | rfl | cases h

/-- A character that is a key of its own is admitted where it can be read. -/
theorem allows_of_next? {e next : Ending} {c : Char} (h : e.next? c = some next)
    (hKey : Continuation.ofText [c] ≠ .other) : e.base.allows (.ofText [c]) = true := by
  cases moves_of_next? h with
  | digit hDigit hMove =>
      rw [ofText_of_isAsciiDigit hDigit]
      cases e <;> first | rfl | cases hMove
  | decimal => rfl
  | @operator _ _ op hOp _ hEnds =>
      have hSymbol := Operator.symbol_of_ofChar? hOp
      cases op <;> cases hSymbol <;> cases e <;> first | rfl | cases hEnds
  | minus hFront | openParen hFront | closeParen hFront =>
      cases e <;> first | rfl | cases hFront
  | _ => exact absurd rfl hKey

theorem eq_operator_of_endsWith {e : Ending} {c : Char} (h : e.EndsWith c)
    (hOperator : isOperatorChar c = true) : e = .operator := by
  cases e with
  | operator => rfl
  | whole | fraction =>
      rw [isOperatorChar_of_isAsciiDigit h] at hOperator
      cases hOperator
  | _ =>
      cases h
      exact absurd hOperator (by decide)

/-- Two operator characters never stand next to each other. -/
theorem next?_operator_ne {c : Char} : operator.next? c ≠ some .operator := by
  intro h
  cases moves_of_next? h with
  | digit _ hMove => cases hMove
  | minus hFront => cases hFront
  | operator _ _ hEnds => cases hEnds

end Ending

namespace Session

/-- The expression can be read from one ending to the next. -/
def IsTyped (s : Session) : Prop :=
  ∃ e, Ending.of? s.expression = some e

theorem accepts_strict {s : Session} {e : Ending} (h : Ending.of? s.expression = some e)
    (next : List Char) : s.accepts next .strict = e.base.allows (.ofText next) :=
  Ending.admits_eq_allows (Ending.of?_base h) next

theorem isTyped_typeIfAccepted {s : Session} {e : Ending} {text : List Char}
    (h : Ending.of? s.expression = some e)
    (hRun : e.base.allows (.ofText text) = true → ∃ next, text.foldlM Ending.next? e = some next) :
    (s.typeIfAccepted text .strict).IsTyped := by
  rw [Session.typeIfAccepted, accepts_strict h]
  split
  · rename_i hAllows
    obtain ⟨next, hNext⟩ := hRun hAllows
    exact ⟨next, (Ending.of?_append h text).trans hNext⟩
  · exact ⟨e, h⟩

/-- A point in the last stretch is what an ending with a point shows. -/
theorem hasPoint_of_point {text : List Char} (h : Ending.of? text = some .point) :
    hasPoint text = true := by
  rcases (Ending.shows_of? h).last with ⟨-, hOpened⟩ | ⟨front, c, rfl, rfl⟩
  · cases hOpened
  · have hPoint : isOperatorChar '.' = false := by decide
    simp [hasPoint, hPoint]

theorem IsTyped.pressDecimal {s : Session} (h : s.IsTyped) :
    (s.pressDecimal .strict).IsTyped := by
  obtain ⟨e, hEnding⟩ := h
  rw [Session.pressDecimal]
  split
  · exact ⟨e, hEnding⟩
  · rename_i hPoint
    refine isTyped_typeIfAccepted hEnding fun hAllows => ?_
    have hEnd : e ≠ .point := by
      rintro rfl
      exact hPoint (hasPoint_of_point hEnding)
    cases e <;> first | exact ⟨_, rfl⟩ | exact absurd rfl hEnd | cases hAllows

/-- An operator that takes the place of another stands where that one stood. -/
theorem IsTyped.pressOperator {s : Session} (h : s.IsTyped) (op : Operator) :
    (s.pressOperator op .strict).IsTyped := by
  obtain ⟨text, result, fault⟩ := s
  obtain ⟨e, hEnding⟩ := h
  change Ending.of? text = some e at hEnding
  rw [Session.pressOperator]
  rcases (Ending.shows_of? hEnding).last with ⟨rfl, rfl⟩ | ⟨kept, c, rfl, hLast⟩
  · simp only [List.getLast?_nil]
    split
    · rename_i hOp
      subst hOp
      exact ⟨.operator, rfl⟩
    · exact ⟨.opened, rfl⟩
  · simp only [List.getLast?_concat, List.dropLast_concat]
    split
    · rename_i hOperator
      obtain rfl := Ending.eq_operator_of_endsWith hLast hOperator
      obtain ⟨before, hBefore, hNext⟩ := Ending.exists_of_append_singleton hEnding
      split
      · exact ⟨.operator, hEnding⟩
      · rename_i hAdmits
        have hAllows : before.allows (.ofText op.symbol) = true := by
          simpa [Ending.admits_eq_allows hBefore] using hAdmits
        have hFront : before ≠ .operator := by
          rintro rfl
          exact Ending.next?_operator_ne hNext
        have hBase : before.base.allows (.ofText op.symbol) = true := by
          cases before <;> first | exact hAllows | cases hAllows
        obtain ⟨next, hRun⟩ := Ending.exists_run_symbol hFront hBase
        exact ⟨next, (Ending.of?_append hBefore _).trans hRun⟩
    · rename_i hOperator
      refine isTyped_typeIfAccepted hEnding fun hAllows => ?_
      refine Ending.exists_run_symbol ?_ hAllows
      rintro rfl
      exact hOperator hLast

theorem IsTyped.press {s : Session} (h : s.IsTyped) {key : Key} (hKey : key.IsAscii) :
    (s.press key .strict).IsTyped := by
  obtain ⟨e, hEnding⟩ := h
  cases key with
  | digit c =>
      have hDigit : isAsciiDigit c = true := hKey
      refine isTyped_typeIfAccepted hEnding fun hAllows => ?_
      rw [Ending.ofText_of_isAsciiDigit hDigit] at hAllows
      obtain ⟨next, hNext⟩ := Ending.exists_next_digit hDigit hAllows
      exact ⟨next, by simpa using hNext⟩
  | operator op => exact IsTyped.pressOperator ⟨e, hEnding⟩ op
  | decimal => exact IsTyped.pressDecimal ⟨e, hEnding⟩
  | openParen | closeParen =>
      refine isTyped_typeIfAccepted hEnding fun hAllows => ?_
      cases e <;> first | exact ⟨_, rfl⟩ | cases hAllows
  | equals =>
      rw [Session.press, Session.pressEquals]
      split <;> exact ⟨e, hEnding⟩
  | backspace =>
      rw [Session.press, Session.pressBackspace]
      split
      · exact ⟨e, hEnding⟩
      · rcases (Ending.shows_of? hEnding).last with ⟨hEmpty, -⟩ | ⟨front, c, hText, -⟩
        · simp_all
        · obtain ⟨before, hBefore, -⟩ := Ending.exists_of_append_singleton (hText ▸ hEnding)
          refine ⟨before, ?_⟩
          simp only [hText, List.dropLast_concat]
          exact hBefore
  | clear => exact ⟨.opened, rfl⟩

theorem IsTyped.pressAll {s : Session} (h : s.IsTyped) {keys : List Key}
    (hKeys : ∀ key ∈ keys, key.IsAscii) : (s.pressAll keys .strict).IsTyped := by
  induction keys generalizing s with
  | nil => exact h
  | cons key keys ih =>
      exact ih (h.press (hKeys key List.mem_cons_self))
        fun other hMem => hKeys other (List.mem_cons_of_mem _ hMem)

/-- Whatever is pressed, what is typed in strict mode has an ending. -/
theorem isTyped_new {keys : List Key} (hKeys : ∀ key ∈ keys, key.IsAscii) :
    (Session.new.pressAll keys .strict).IsTyped :=
  IsTyped.pressAll ⟨.opened, rfl⟩ hKeys

theorem expression_typeIfAccepted {s : Session} {e : Ending} {text : List Char}
    (h : Ending.of? s.expression = some e) (hAllows : e.base.allows (.ofText text) = true) :
    (s.typeIfAccepted text .strict).expression = s.expression ++ text := by
  rw [Session.typeIfAccepted, accepts_strict h, if_pos hAllows]
  rfl

theorem expression_pressOperator {s : Session} {e next : Ending} {op : Operator}
    (h : Ending.of? s.expression = some e) (hRun : op.symbol.foldlM Ending.next? e = some next) :
    (s.pressOperator op .strict).expression = s.expression ++ op.symbol := by
  obtain ⟨text, result, fault⟩ := s
  change Ending.of? text = some e at h
  rw [Session.pressOperator]
  rcases (Ending.shows_of? h).last with ⟨rfl, rfl⟩ | ⟨front, c, rfl, hLast⟩
  · obtain rfl : op = .subtract := by
      cases op <;> first | rfl | cases hRun
    rfl
  · simp only [List.getLast?_concat]
    split
    · rename_i hOperator
      obtain rfl := Ending.eq_operator_of_endsWith hLast hOperator
      cases op <;> cases hRun
    · exact expression_typeIfAccepted h (Ending.allows_symbol hRun)

/-- A key whose label can be read behind the expression is appended as it is. Only
a point is also held back by a point in front of it. -/
theorem expression_press {s : Session} {e next : Ending} {key : Key}
    (h : Ending.of? s.expression = some e) (hKey : key.IsAscii)
    (hRun : key.label.foldlM Ending.next? e = some next)
    (hPoint : key = .decimal → hasPoint s.expression = false) :
    (s.press key .strict).expression = s.expression ++ key.label := by
  cases key with
  | digit c =>
      have hNext : e.next? c = some next := by simpa [Key.label] using hRun
      have hKind : Continuation.ofText [c] = .digit := Ending.ofText_of_isAsciiDigit hKey
      exact expression_typeIfAccepted h (Ending.allows_of_next? hNext (by simp [hKind]))
  | operator op => exact expression_pressOperator h hRun
  | decimal =>
      have hNext : e.next? '.' = some next := by simpa [Key.label] using hRun
      rw [press, Session.pressDecimal, if_neg (by simp [hPoint rfl])]
      exact expression_typeIfAccepted h (Ending.allows_of_next? hNext (by decide))
  | openParen =>
      have hNext : e.next? '(' = some next := by simpa [Key.label] using hRun
      exact expression_typeIfAccepted h (Ending.allows_of_next? hNext (by decide))
  | closeParen =>
      have hNext : e.next? ')' = some next := by simpa [Key.label] using hRun
      exact expression_typeIfAccepted h (Ending.allows_of_next? hNext (by decide))
  | equals | backspace | clear => cases e <;> cases hRun

end Session

end KeypadCalculator
