import KeypadCalculator.Keypad.Session
import KeypadCalculator.Proofs.Display.Settled

/-!
What settling leaves behind. In whatever modes a calculator was used, a flagged
fault is that of the expression as it stands, and the preview shows what the
expression comes to, before it is settled and after.
-/

namespace KeypadCalculator

theorem isFinite_of_settleOperands {operands : List Binary64} {value : Binary64}
    (h : settleOperands operands = .ok value) : value.isFinite = true := by
  unfold settleOperands at h
  split at h
  · split at h
    · rename_i hFinite
      obtain rfl := Except.ok.inj h
      exact hFinite
    · cases h
  · cases h

/-- An expression never comes to a number that is not finite. -/
theorem isFinite_of_evaluateTokens {tokens : List Token} {value : Binary64}
    (h : evaluateTokens tokens = .ok value) : value.isFinite = true := by
  simp only [evaluateTokens] at h
  split at h
  · obtain rfl := Except.ok.inj h
    exact Binary64.isFinite_ofUnits ⟨Binary64.twoPow_pos 2098, Nat.dvd_zero _⟩
  · rw [evaluatePostfix] at h
    cases hOperands : (toPostfix (PrefixMinus.complete tokens)).foldlM operandStep [] with
    | error fault =>
        rw [hOperands] at h
        cases h
    | ok operands =>
        rw [hOperands] at h
        exact isFinite_of_settleOperands h

namespace Evaluation

theorem display_of_ok {e : Evaluation} {value : Binary64} (h : e.outcome = .ok value) :
    e.display = settledText value := by
  rw [display, h]

theorem display_of_error {e : Evaluation} {fault : Fault} (h : e.outcome = .error fault) :
    e.display = errorText := by
  rw [display, h]

theorem fault?_eq_some {e : Evaluation} {fault : Fault} :
    e.fault? = some fault ↔ e.outcome = .error fault := by
  rw [fault?]
  cases e.outcome with
  | ok value => simp
  | error other => simp

theorem fault?_eq_none {e : Evaluation} :
    e.fault? = none ↔ ∃ value, e.outcome = .ok value := by
  rw [fault?]
  cases e.outcome with
  | ok value => simp
  | error other => simp

/-- The preview of an outcome is the error text just where there is no value. -/
theorem previewText_display_eq_errorText (text : List Char) :
    previewText (evaluate text).display = errorText ↔
      ∃ fault, (evaluate text).outcome = .error fault := by
  cases hOutcome : (evaluate text).outcome with
  | ok value =>
      have hFinite : value.isFinite = true := isFinite_of_evaluateTokens hOutcome
      rw [display_of_ok hOutcome]
      simp [previewText_settledText_ne_errorText hFinite]
  | error fault =>
      rw [display_of_error hOutcome]
      exact iff_of_true (by decide) ⟨fault, rfl⟩

end Evaluation

namespace Session

/-- The calculators in use: a new one, or one that a calculation from the history
was put into, and what keys make of them, each pressed in a mode of its own. -/
inductive Reachable : Session → Prop where
  | new : Reachable .new
  | ofSettled (expression result : List Char) : Reachable (.ofSettled expression result)
  | press {s : Session} (h : Reachable s) (key : Key) (mode : InputMode) :
      Reachable (s.press key mode)

/-- A flagged fault is what the expression as it stands comes to. -/
def FlagsOwnFault (s : Session) : Prop :=
  ∀ fault, s.fault = some fault →
    s.expression ≠ [] ∧ s.result = errorText ∧ (evaluate s.expression).outcome = .error fault

/-- The calculator after its expression was evaluated. -/
def settled (s : Session) : Session :=
  { s with result := (evaluate s.expression).display, fault := (evaluate s.expression).fault? }

theorem press_equals_of_ne_nil {s : Session} (h : s.expression ≠ []) (mode : InputMode) :
    s.press .equals mode = s.settled := by
  rw [press, pressEquals, if_neg (by simpa using h), settled]

theorem press_equals_of_nil {s : Session} (h : s.expression = []) (mode : InputMode) :
    s.press .equals mode = s := by
  rw [press, pressEquals, if_pos (by simpa using h)]

theorem typeIfAccepted_fault (s : Session) (next : List Char) (mode : InputMode) :
    s.typeIfAccepted next mode = s ∨ (s.typeIfAccepted next mode).fault = none := by
  rw [typeIfAccepted]
  split
  · exact .inr rfl
  · exact .inl rfl

theorem pressOperator_fault (s : Session) (op : Operator) (mode : InputMode) :
    (s.pressOperator op mode).fault = none := by
  obtain ⟨text, result, fault⟩ := s
  simp only [pressOperator]
  split
  · split <;> rfl
  · split
    · split <;> rfl
    · rw [typeIfAccepted]
      split <;> rfl

/-- A key leaves the calculator as it is, or takes the fault off, or settles an
expression. -/
theorem press_fault_cases (s : Session) (key : Key) (mode : InputMode) :
    s.press key mode = s ∨ (s.press key mode).fault = none ∨
      (s.expression ≠ [] ∧ s.press key mode = s.settled) := by
  cases key with
  | digit c => exact (s.typeIfAccepted_fault [c] mode).imp_right .inl
  | openParen => exact (s.typeIfAccepted_fault ['('] mode).imp_right .inl
  | closeParen => exact (s.typeIfAccepted_fault [')'] mode).imp_right .inl
  | operator op => exact .inr (.inl (s.pressOperator_fault op mode))
  | clear => exact .inr (.inl rfl)
  | decimal =>
      rw [press, pressDecimal]
      split
      · exact .inl rfl
      · exact (s.typeIfAccepted_fault ['.'] mode).imp_right .inl
  | backspace =>
      rw [press, pressBackspace]
      split
      · exact .inl rfl
      · exact .inr (.inl rfl)
  | equals =>
      by_cases hText : s.expression = []
      · exact .inl (press_equals_of_nil hText mode)
      · exact .inr (.inr ⟨hText, press_equals_of_ne_nil hText mode⟩)

theorem flagsOwnFault_of_fault_eq_none {s : Session} (h : s.fault = none) : s.FlagsOwnFault := by
  intro fault hFault
  rw [h] at hFault
  cases hFault

theorem flagsOwnFault_settled {s : Session} (h : s.expression ≠ []) :
    s.settled.FlagsOwnFault := by
  intro fault hFault
  have hOutcome := Evaluation.fault?_eq_some.mp hFault
  exact ⟨h, Evaluation.display_of_error hOutcome, hOutcome⟩

theorem FlagsOwnFault.press {s : Session} (h : s.FlagsOwnFault) (key : Key) (mode : InputMode) :
    (s.press key mode).FlagsOwnFault := by
  rcases s.press_fault_cases key mode with hSame | hNone | ⟨hText, hSettled⟩
  · rw [hSame]
    exact h
  · exact flagsOwnFault_of_fault_eq_none hNone
  · rw [hSettled]
    exact flagsOwnFault_settled hText

theorem Reachable.flagsOwnFault {s : Session} (h : s.Reachable) : s.FlagsOwnFault := by
  induction h with
  | new | ofSettled => exact flagsOwnFault_of_fault_eq_none rfl
  | press _ key mode ih => exact ih.press key mode

/-- While a fault is flagged, there is an expression, the result is the error
text, and the expression comes to that very fault. -/
theorem evaluate_of_fault {s : Session} (h : s.Reachable) {fault : Fault}
    (hFault : s.fault = some fault) :
    s.expression ≠ [] ∧ s.result = errorText ∧
      (evaluate s.expression).outcome = .error fault :=
  h.flagsOwnFault fault hFault

/-- A recalled sum is typed on until it divides by zero, in both modes. -/
theorem evaluate_of_fault_recalled :
    let s := ((((ofSettled ['1', '+', '2'] ['3']).press (.operator .divide) .strict).press
      (.digit '0') .advisory).press .equals .strict).press (.digit 'x') .strict
    s.Reachable ∧ s.fault = some .divisionByZero ∧
      (s.expression ≠ [] ∧ s.result = errorText ∧
        (evaluate s.expression).outcome = .error .divisionByZero) := by
  intro s
  have hReachable : s.Reachable :=
    ((((Reachable.ofSettled ['1', '+', '2'] ['3']).press (.operator .divide) .strict).press
      (.digit '0') .advisory).press .equals .strict).press (.digit 'x') .strict
  have hFault : s.fault = some .divisionByZero := by decide +kernel
  exact ⟨hReachable, hFault, evaluate_of_fault hReachable hFault⟩

theorem preview_of_nil {s : Session} (h : s.FlagsOwnFault) (hText : s.expression = []) :
    s.preview = s.result := by
  have hFault : s.fault = none := by
    cases hFlag : s.fault with
    | none => rfl
    | some fault => exact absurd hText (h fault hFlag).1
  simp [preview, hFault, hText]

/-- The flag makes no difference to what is shown of an expression. -/
theorem preview_of_ne_nil {s : Session} (h : s.FlagsOwnFault) (hText : s.expression ≠ []) :
    s.preview = previewText (evaluate s.expression).display := by
  cases hFlag : s.fault with
  | none => simp [preview, hFlag, hText]
  | some fault =>
      have hFails := (h fault hFlag).2.2
      rw [(Evaluation.previewText_display_eq_errorText s.expression).mpr ⟨fault, hFails⟩]
      simp [preview, hFlag]

/-- Settling shows nothing that the preview did not show before, and settling
again changes nothing. Of an expression with a value the preview is that of the
settled result, and it is the error text just where there is no value; where
nothing is typed, there is nothing to settle, and the last result is shown. -/
theorem preview_press_equals {s : Session} (h : s.Reachable) (mode again : InputMode) :
    (s.press .equals mode).preview = s.preview ∧
      (s.press .equals mode).press .equals again = s.press .equals mode ∧
      (s.expression ≠ [] →
        ((s.press .equals mode).fault = none →
            s.preview = previewText (s.press .equals mode).result) ∧
          (s.preview = errorText ↔ ∃ fault, (evaluate s.expression).outcome = .error fault)) ∧
      (s.expression = [] → s.press .equals mode = s ∧ s.preview = s.result) := by
  by_cases hText : s.expression = []
  · have hSame := press_equals_of_nil hText mode
    rw [hSame]
    exact ⟨rfl, press_equals_of_nil hText again, fun hTyped => absurd hText hTyped,
      fun _ => ⟨rfl, preview_of_nil h.flagsOwnFault hText⟩⟩
  · have hPreview := preview_of_ne_nil h.flagsOwnFault hText
    have hSettled : s.settled.preview = previewText (evaluate s.expression).display :=
      preview_of_ne_nil (flagsOwnFault_settled hText) hText
    have hAgain : s.settled.press .equals again = s.settled :=
      press_equals_of_ne_nil (s := s.settled) hText again
    rw [press_equals_of_ne_nil hText mode]
    refine ⟨hSettled.trans hPreview.symm, hAgain, fun _ => ⟨fun _ => hPreview, ?_⟩,
      fun hNone => absurd hNone hText⟩
    rw [hPreview]
    exact Evaluation.previewText_display_eq_errorText s.expression

/-- One third, whose last digit is typed after the rest was settled. -/
theorem preview_press_equals_third :
    let s := (((new.press (.digit '1') .strict).press (.operator .divide) .advisory).press
      .equals .strict).press (.digit '3') .strict
    s.Reachable ∧
      ((s.press .equals .advisory).preview = s.preview ∧
        (s.press .equals .advisory).press .equals .strict = s.press .equals .advisory ∧
        (s.expression ≠ [] →
          ((s.press .equals .advisory).fault = none →
              s.preview = previewText (s.press .equals .advisory).result) ∧
            (s.preview = errorText ↔
              ∃ fault, (evaluate s.expression).outcome = .error fault)) ∧
        (s.expression = [] → s.press .equals .advisory = s ∧ s.preview = s.result)) := by
  intro s
  have hReachable : s.Reachable :=
    (((Reachable.new.press (.digit '1') .strict).press (.operator .divide) .advisory).press
      .equals .strict).press (.digit '3') .strict
  exact ⟨hReachable, preview_press_equals hReachable .advisory .strict⟩

/-- With the expression of a failure taken off again, the error text is still the
last result, and is shown as such. -/
example : (((new.press (.operator .subtract) .strict).press .equals .strict).press
    .backspace .strict).preview = errorText := by
  decide

end Session

end KeypadCalculator
