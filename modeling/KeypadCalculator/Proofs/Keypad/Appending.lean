import KeypadCalculator.Proofs.Keypad.StrictTyping
import KeypadCalculator.Proofs.Token.Splitting

/-!
What a key press adds to an expression: its label behind everything else, or less
than its label is long. An expression that is as long as the labels of its keys
is therefore made of them.
-/

namespace KeypadCalculator

open Text

namespace Session

theorem typeIfAccepted_append_or_length_lt (s : Session) {next : List Char} (hNext : next ≠ [])
    (mode : InputMode) :
    (s.typeIfAccepted next mode).expression = s.expression ++ next ∨
      (s.typeIfAccepted next mode).expression.length < s.expression.length + next.length := by
  rw [typeIfAccepted]
  split
  · exact .inl rfl
  · have hLength := List.length_pos_iff.mpr hNext
    exact .inr (by omega)

theorem pressOperator_append_or_length_lt (s : Session) (op : Operator) (mode : InputMode) :
    (s.pressOperator op mode).expression = s.expression ++ op.symbol ∨
      (s.pressOperator op mode).expression.length <
        s.expression.length + op.symbol.length := by
  obtain ⟨text, result, fault⟩ := s
  have hSymbol : op.symbol ≠ [] := by cases op <;> simp [Operator.symbol]
  have hLength := List.length_pos_iff.mpr hSymbol
  rw [pressOperator]
  rcases List.eq_nil_or_concat text with rfl | ⟨front, last, rfl⟩
  · simp only [List.getLast?_nil]
    split
    · exact .inl rfl
    · exact .inr (by simpa using hLength)
  · simp only [List.concat_eq_append, List.getLast?_concat, List.dropLast_concat]
    split
    · split
      · exact .inr (by simpa using hLength)
      · exact .inr (by simp)
    · exact typeIfAccepted_append_or_length_lt ⟨front ++ [last], result, none⟩ hSymbol mode

/-- Every key press appends its label, or makes the expression longer by less. -/
theorem press_append_or_length_lt (s : Session) (key : Key) (mode : InputMode) :
    (s.press key mode).expression = s.expression ++ key.label ∨
      (s.press key mode).expression.length < s.expression.length + key.label.length := by
  cases key with
  | digit c => exact typeIfAccepted_append_or_length_lt s (by simp) mode
  | operator op => exact pressOperator_append_or_length_lt s op mode
  | decimal =>
      rw [press, pressDecimal]
      split
      · exact .inr (by simp [Key.label])
      · exact typeIfAccepted_append_or_length_lt s (by simp) mode
  | openParen => exact typeIfAccepted_append_or_length_lt s (by simp) mode
  | closeParen => exact typeIfAccepted_append_or_length_lt s (by simp) mode
  | equals =>
      rw [press, pressEquals]
      split <;> exact .inr (by simp [Key.label])
  | backspace =>
      rw [press, pressBackspace]
      split
      · exact .inr (by simp [Key.label])
      · refine .inr ?_
        simp only [List.length_dropLast, Key.label, List.length_singleton]
        omega
  | clear => exact .inr (by simp [press, new, Key.label])

theorem pressAll_append_or_length_lt (s : Session) (keys : List Key) (mode : InputMode) :
    (s.pressAll keys mode).expression = s.expression ++ keys.flatMap Key.label ∨
      (s.pressAll keys mode).expression.length <
        s.expression.length + (keys.flatMap Key.label).length := by
  induction keys generalizing s with
  | nil => exact .inl (by simp [pressAll])
  | cons key keys ih =>
      have hKeys := ih (s.press key mode)
      rw [List.flatMap_cons, List.length_append]
      change (Session.pressAll (s.press key mode) keys mode).expression = _ ∨
        (Session.pressAll (s.press key mode) keys mode).expression.length < _
      rcases s.press_append_or_length_lt key mode with hKey | hKey
      · rw [hKey, List.append_assoc] at hKeys
        rcases hKeys with hKeys | hKeys
        · exact .inl hKeys
        · rw [List.length_append] at hKeys
          exact .inr (by omega)
      · rcases hKeys with hKeys | hKeys
        · have hLength := congrArg List.length hKeys
          rw [List.length_append] at hLength
          exact .inr (by omega)
        · exact .inr (by omega)

theorem pressAll_append (s : Session) (front rest : List Key) (mode : InputMode) :
    s.pressAll (front ++ rest) mode = (s.pressAll front mode).pressAll rest mode :=
  List.foldl_append

/-- If nothing of the labels is lost in the end, nothing was lost on the way. -/
theorem pressAll_eq_labels_of_append {s : Session} {front rest : List Key} {mode : InputMode}
    (h : (s.pressAll (front ++ rest) mode).expression =
      s.expression ++ (front ++ rest).flatMap Key.label) :
    (s.pressAll front mode).expression = s.expression ++ front.flatMap Key.label := by
  rcases s.pressAll_append_or_length_lt front mode with hFront | hFront
  · exact hFront
  · have hLength := congrArg List.length h
    rw [pressAll_append, List.flatMap_append, List.length_append, List.length_append] at hLength
    rcases (s.pressAll front mode).pressAll_append_or_length_lt rest mode with hRest | hRest
    · have hTotal := congrArg List.length hRest
      rw [List.length_append] at hTotal
      omega
    · omega

end Session

namespace Key

theorem length_label_of_ofChar? {ascii : Bool} {c : Char} {key : Key}
    (h : ofChar? ascii c = some key) : key.label.length = 1 := by
  rw [ofChar?] at h
  repeat' split at h
  all_goals try
    obtain rfl := Option.some.inj h
    rfl
  obtain ⟨op, hOp, rfl⟩ := Option.map_eq_some_iff.mp h
  rw [label, Operator.symbol_of_ofChar? hOp]
  rfl

/-- Typing a text presses no more labels than the text has characters. -/
theorem length_labels_ofTyping_le (ascii : Bool) (typed : List Char) :
    ((ofTyping ascii typed).flatMap label).length ≤ typed.length := by
  rw [ofTyping]
  fun_induction Glyph.ofText typed with
  | case1 rest ih =>
      simp only [List.filterMap_cons, ofGlyph?, List.flatMap_cons, List.length_append]
      simp only [label, Operator.symbol, List.length_cons, List.length_nil]
      omega
  | case2 c rest _ ih =>
      rw [List.filterMap_cons, ofGlyph?]
      cases hKey : ofChar? ascii c with
      | none =>
          simp only [List.length_cons]
          omega
      | some key =>
          simp only [List.flatMap_cons, List.length_append, length_label_of_ofChar? hKey,
            List.length_cons]
          omega
  | case3 => exact Nat.le_refl _

/-- A character that can follow an expression is the label of its key, unless the
modulo operator begins with it. -/
theorem exists_of_next? {e next : Ending} {c : Char} (h : e.next? c = some next)
    (hFront : e.awaitsOperand = true ∨ e.endsOperand = true) (ascii : Bool) :
    (c = 'm' ∧ next = .letterM) ∨
      (next.awaitsOperand = true ∨ next.endsOperand = true) ∧
        ∃ key, ofChar? ascii c = some key ∧ key.label = [c] ∧ key.IsAscii := by
  cases Ending.moves_of_next? h with
  | digit hDigit hMove =>
      refine .inr ⟨.inr ?_, .digit c, by rw [ofChar?, if_pos hDigit], rfl, hDigit⟩
      cases e <;> cases hMove <;> rfl
  | decimal => exact .inr ⟨.inr rfl, .decimal, rfl, rfl, trivial⟩
  | minus _ => exact .inr ⟨.inl rfl, .operator .subtract, by cases ascii <;> rfl, rfl, trivial⟩
  | @operator _ _ op hOp _ _ =>
      have hSymbol := Operator.symbol_of_ofChar? hOp
      refine .inr ⟨.inl rfl, .operator op, ?_, hSymbol, trivial⟩
      cases op <;> cases hSymbol <;> cases ascii <;> rfl
  | openParen _ => exact .inr ⟨.inl rfl, .openParen, rfl, rfl, trivial⟩
  | closeParen _ => exact .inr ⟨.inr rfl, .closeParen, rfl, rfl, trivial⟩
  | letterM _ => exact .inl ⟨rfl, rfl⟩
  | lettersMo | modulo => rcases hFront with hFront | hFront <;> cases hFront

theorem ofTyping_append_point (ascii : Bool) (front rest : List Char) :
    ofTyping ascii (front ++ '.' :: rest) =
      ofTyping ascii front ++ .decimal :: ofTyping ascii rest := by
  rw [ofTyping, Glyph.ofText_append_cons (by decide) (by decide) (by decide),
    List.filterMap_append]
  rfl

end Key

end KeypadCalculator
