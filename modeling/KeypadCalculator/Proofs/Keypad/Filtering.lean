import KeypadCalculator.Keypad.Session

/-!
What a key does in strict mode beside what it does in advisory mode. Strict mode
is meant to be a filter in front of the keys: it lets a key do all that it would
do, or nothing at all. An operator takes the fault off before it is checked,
though, so one that is turned away still leaves a trace of itself.
-/

namespace KeypadCalculator

namespace Session

/-- Strict input does not let the operator follow the expression, or take the
place of the operator character that stands last. An empty expression is never
asked. -/
def turnsAway (s : Session) (op : Operator) : Bool :=
  match s.expression.getLast? with
  | none => false
  | some last =>
    if isOperatorChar last then !admits s.expression.dropLast op.symbol
    else !admits (base s.expression) op.symbol

/-- The key is an operator that would have changed the expression, and it is
turned away while a fault is flagged. -/
def LosesFault (s : Session) (key : Key) : Prop :=
  ∃ op, key = .operator op ∧ s.turnsAway op = true ∧
    (s.press key .advisory).expression ≠ s.expression ∧ s.fault ≠ none

theorem typeIfAccepted_strict (s : Session) (next : List Char) :
    s.typeIfAccepted next .strict = s ∨
      s.typeIfAccepted next .strict = s.typeIfAccepted next .advisory := by
  rw [typeIfAccepted]
  split
  · exact .inr rfl
  · exact .inl rfl

/-- An operator is checked once its fault is gone. -/
theorem pressOperator_strict (s : Session) (op : Operator) :
    s.pressOperator op .strict =
      if s.turnsAway op then { s with fault := none } else s.pressOperator op .advisory := by
  obtain ⟨text, result, fault⟩ := s
  simp only [pressOperator, turnsAway]
  cases text.getLast? with
  | none => rfl
  | some last =>
      by_cases hOperator : isOperatorChar last = true
      · simp [hOperator]
      · cases hAdmits : admits (base text) op.symbol <;>
          simp [hOperator, typeIfAccepted, accepts, hAdmits]

/-- In advisory mode an operator edits the expression and takes the fault off. -/
theorem pressOperator_advisory (s : Session) (op : Operator) :
    s.pressOperator op .advisory =
      { s with expression := (s.pressOperator op .advisory).expression, fault := none } := by
  obtain ⟨text, result, fault⟩ := s
  simp only [pressOperator]
  cases text.getLast? with
  | none => by_cases hMinus : op = .subtract <;> simp [hMinus, type]
  | some last =>
      by_cases hOperator : isOperatorChar last = true <;>
        simp [hOperator, typeIfAccepted, accepts, type]

/-- Only an operator can be told apart from a filtered key, and then the fault is
all that is lost. -/
theorem press_strict_cases (s : Session) (key : Key) :
    s.press key .strict = s ∨ s.press key .strict = s.press key .advisory ∨
      ∃ op, key = .operator op ∧ s.turnsAway op = true ∧
        s.press key .strict = { s with fault := none } := by
  cases key with
  | digit c => exact (s.typeIfAccepted_strict [c]).imp_right .inl
  | openParen => exact (s.typeIfAccepted_strict ['(']).imp_right .inl
  | closeParen => exact (s.typeIfAccepted_strict [')']).imp_right .inl
  | equals | backspace | clear => exact .inr (.inl rfl)
  | decimal =>
      simp only [press, pressDecimal]
      split
      · exact .inl rfl
      · exact (s.typeIfAccepted_strict ['.']).imp_right .inl
  | operator op =>
      simp only [press, pressOperator_strict]
      split
      · rename_i hTurned
        exact .inr (.inr ⟨op, rfl, hTurned, rfl⟩)
      · exact .inr (.inl rfl)

/-- In strict mode every key leaves the calculator as it was, or does what it does
in advisory mode, with one exception: an operator that is turned away takes a
flagged fault with it, and nothing else. -/
theorem press_strict_filters_iff (s : Session) (key : Key) :
    (s.press key .strict = s ∨ s.press key .strict = s.press key .advisory ∨
        s.press key .strict = { s with fault := none }) ∧
      ((s.press key .strict = s ∨ s.press key .strict = s.press key .advisory) ↔
        ¬ s.LosesFault key) := by
  refine ⟨?_, ?_, ?_⟩
  · rcases s.press_strict_cases key with hSame | hAdvisory | ⟨op, -, -, hFault⟩
    · exact .inl hSame
    · exact .inr (.inl hAdvisory)
    · exact .inr (.inr hFault)
  · rintro hFiltered ⟨op, rfl, hTurned, hChanged, hFault⟩
    have hStrict : s.press (.operator op) .strict = { s with fault := none } := by
      rw [press, pressOperator_strict, if_pos hTurned]
    rw [hStrict] at hFiltered
    rcases hFiltered with hSame | hAdvisory
    · exact hFault (congrArg fault hSame).symm
    · exact hChanged (congrArg expression hAdvisory).symm
  · intro hKept
    rcases s.press_strict_cases key with hSame | hAdvisory | ⟨op, rfl, hTurned, hFault⟩
    · exact .inl hSame
    · exact .inr hAdvisory
    · by_cases hFlag : s.fault = none
      · left
        rw [hFault, ← hFlag]
      · have hText : (s.press (.operator op) .advisory).expression = s.expression :=
          Classical.byContradiction fun hChanged => hKept ⟨op, rfl, hTurned, hChanged, hFlag⟩
        have hAdvisory := s.pressOperator_advisory op
        rw [← press, hText] at hAdvisory
        exact .inr (hFault.trans hAdvisory.symm)

/-- The minus sign of `-` settles to a fault. A plus sign may not take its place at
the start, but the fault is gone behind it, and the minus sign still stands. -/
theorem press_strict_loses_fault_leading_minus :
    ¬ (((Session.new.pressAll (Key.ofTyping true "-=".toList) .strict).press
          (.operator .add) .strict =
        Session.new.pressAll (Key.ofTyping true "-=".toList) .strict) ∨
      (Session.new.pressAll (Key.ofTyping true "-=".toList) .strict).press
          (.operator .add) .strict =
        (Session.new.pressAll (Key.ofTyping true "-=".toList) .strict).press
          (.operator .add) .advisory) := by
  decide

end Session

end KeypadCalculator
