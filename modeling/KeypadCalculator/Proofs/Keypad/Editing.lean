import KeypadCalculator.Proofs.Keypad.StrictTyping

/-!
What keys do to an expression when each of them may be pressed in a mode of its
own. What a mode turns away leaves the expression as it is, so that what all of the
keys keep in each single press is kept for ever.
-/

namespace KeypadCalculator

open Text

/-- A digit or a parenthesis. -/
def IsPlain (c : Char) : Prop :=
  isAsciiDigit c = true ∨ isParenthesis c = true

theorem isPlain_openParen : IsPlain '(' :=
  .inr rfl

theorem isPlain_closeParen : IsPlain ')' :=
  .inr rfl

theorem IsPlain.eq_parenthesis {c : Char} (h : IsPlain c) (hDigit : isAsciiDigit c = false) :
    c = '(' ∨ c = ')' := by
  rcases h with hAscii | hParenthesis
  · rw [hDigit] at hAscii
    cases hAscii
  · simpa [isParenthesis] using hParenthesis

theorem IsPlain.ne {c d : Char} (h : IsPlain c) (hDigit : isAsciiDigit d = false)
    (hParenthesis : isParenthesis d = false) : c ≠ d := by
  rintro rfl
  rcases h.eq_parenthesis hDigit with rfl | rfl <;> cases hParenthesis

theorem IsPlain.isOperatorChar {c : Char} (h : IsPlain c) : isOperatorChar c = false := by
  cases hDigit : isAsciiDigit c with
  | true => exact isOperatorChar_of_isAsciiDigit hDigit
  | false => rcases h.eq_parenthesis hDigit with rfl | rfl <;> rfl

/-- All that a key can do to an expression, in whatever mode. -/
inductive Edits : Key → List Char → List Char → Prop where
  | keep (key : Key) (text : List Char) : Edits key text text
  | clear (text : List Char) : Edits .clear text []
  | erase (text : List Char) : Edits .backspace text text.dropLast
  | append (key : Key) (text : List Char) {c : Char} (h : IsPlain c) :
      Edits key text (text ++ [c])
  | point {text : List Char} (h : Session.hasPoint text = false) :
      Edits .decimal text (text ++ ['.'])
  | operator (op : Operator) {text : List Char}
      (h : ∀ last ∈ text.getLast?, isOperatorChar last = false) :
      Edits (.operator op) text (text ++ op.symbol)
  /-- The operator takes the place of the operator character at the end. -/
  | replace (op : Operator) (front : List Char) {last : Char} (h : isOperatorChar last = true) :
      Edits (.operator op) (front ++ [last]) (front ++ op.symbol)

namespace Session

theorem edits_typeIfAccepted {s : Session} {key : Key} {next : List Char}
    (h : Edits key s.expression (s.expression ++ next)) (mode : InputMode) :
    Edits key s.expression (s.typeIfAccepted next mode).expression := by
  rw [typeIfAccepted]
  split
  · exact h
  · exact .keep key s.expression

theorem edits_pressDecimal (s : Session) (mode : InputMode) :
    Edits .decimal s.expression (s.pressDecimal mode).expression := by
  rw [pressDecimal]
  split
  · exact .keep .decimal s.expression
  · rename_i hPoint
    exact edits_typeIfAccepted (.point (by simpa using hPoint)) mode

theorem edits_pressOperator (s : Session) (op : Operator) (mode : InputMode) :
    Edits (.operator op) s.expression (s.pressOperator op mode).expression := by
  obtain ⟨text, result, fault⟩ := s
  rw [pressOperator]
  rcases List.eq_nil_or_concat text with rfl | ⟨front, last, rfl⟩
  · simp only [List.getLast?_nil]
    split
    · exact .operator op (by simp)
    · exact .keep (.operator op) []
  · simp only [List.concat_eq_append, List.getLast?_concat, List.dropLast_concat]
    split
    · rename_i hOperator
      split
      · exact .keep (.operator op) (front ++ [last])
      · exact .replace op front hOperator
    · rename_i hOperator
      exact edits_typeIfAccepted (s := ⟨front ++ [last], result, none⟩)
        (.operator op (by simpa using hOperator)) mode

theorem edits_press (s : Session) {key : Key} (hKey : key.IsAscii) (mode : InputMode) :
    Edits key s.expression (s.press key mode).expression := by
  cases key with
  | digit c => exact edits_typeIfAccepted (.append _ _ (.inl hKey)) mode
  | operator op => exact s.edits_pressOperator op mode
  | decimal => exact s.edits_pressDecimal mode
  | openParen => exact edits_typeIfAccepted (.append _ _ isPlain_openParen) mode
  | closeParen => exact edits_typeIfAccepted (.append _ _ isPlain_closeParen) mode
  | equals =>
      rw [press, pressEquals]
      split <;> exact .keep .equals s.expression
  | backspace =>
      rw [press, pressBackspace]
      split
      · exact .keep .backspace s.expression
      · exact .erase s.expression
  | clear => exact .clear s.expression

/-- The state after keys in order, each pressed in a mode of its own. -/
def pressEach (s : Session) (moves : List (Key × InputMode)) : Session :=
  moves.foldl (fun s move => s.press move.1 move.2) s

/-- What every edit keeps is kept by all keys together. -/
theorem pressEach_of_edits {P : List Char → Prop}
    (hEdits : ∀ {key text edited}, Edits key text edited → P text → P edited) {s : Session}
    (h : P s.expression) {moves : List (Key × InputMode)}
    (hKeys : ∀ move ∈ moves, move.1.IsAscii) : P (s.pressEach moves).expression := by
  induction moves generalizing s with
  | nil => exact h
  | cons move moves ih =>
      have hPress := s.edits_press (hKeys move List.mem_cons_self) move.2
      exact ih (hEdits hPress h) fun other hMem => hKeys other (List.mem_cons_of_mem _ hMem)

end Session

theorem Key.isAscii_of_map_fst {moves : List (Key × InputMode)} {ascii : Bool}
    {typed : List Char} (h : moves.map Prod.fst = ofTyping ascii typed) :
    ∀ move ∈ moves, move.1.IsAscii :=
  fun _ hMem => isAscii_of_mem_ofTyping ascii typed _ (h ▸ List.mem_map_of_mem hMem)

end KeypadCalculator
