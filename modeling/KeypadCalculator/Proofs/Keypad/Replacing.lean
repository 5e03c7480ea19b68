import KeypadCalculator.Proofs.Keypad.StrictTyping

/-!
Operators pressed one behind the other in strict mode. The later one takes the place
of the earlier one, as if that had not been pressed, except behind a point at the end
of a number: an operator is appended there, as the point counts as part of the number,
but none is let into the place of it.
-/

namespace KeypadCalculator

namespace Ending

theorem eq_point_of_endsWith {e : Ending} (h : e.EndsWith '.') : e = .point := by
  cases e with
  | point => rfl
  | _ =>
      simp only [EndsWith] at h
      exact absurd h (by decide)

/-- A point stands last at one ending only. -/
theorem eq_point_iff {text : List Char} {e : Ending} (h : of? text = some e) :
    e = .point ↔ text.getLast? = some '.' := by
  rcases (shows_of? h).last with ⟨rfl, rfl⟩ | ⟨front, c, rfl, hLast⟩
  · simp
  · rw [List.getLast?_concat, Option.some.injEq]
    constructor
    · rintro rfl
      exact hLast
    · rintro rfl
      exact eq_point_of_endsWith hLast

/-- Nothing is admitted behind a point itself. Anywhere else, what is admitted is what
is admitted without a point at the end. -/
theorem admits_of_admits_base {text next : List Char} {e : Ending} (h : of? text = some e)
    (hBase : admits (Session.base text) next = true) :
    admits text next = true ↔ text.getLast? ≠ some '.' := by
  rw [admits_eq_allows (of?_base h)] at hBase
  rw [admits_eq_allows h, ne_eq, ← eq_point_iff h]
  by_cases hPoint : e = .point
  · subst hPoint
    simp [allows]
  · have hSame : e.base = e := by
      cases e <;> first | rfl | exact absurd rfl hPoint
    rw [hSame] at hBase
    simp [hBase, hPoint]

end Ending

theorem Operator.symbol_injective {first second : Operator} (h : first.symbol = second.symbol) :
    first = second := by
  cases first <;> cases second <;> first | rfl | cases h

theorem Operator.exists_char_of_ne_modulo {op : Operator} (h : op ≠ .modulo) :
    ∃ c, op.symbol = [c] ∧ isOperatorChar c = true := by
  cases op with
  | modulo => exact absurd rfl h
  | add | subtract | multiply | divide | percent => exact ⟨_, rfl, rfl⟩

namespace Session

/-- Strict mode puts the operator behind the expression as it stands. -/
def Appends (s : Session) (op : Operator) : Prop :=
  (s.press (.operator op) .strict).expression = s.expression ++ op.symbol

/-- Behind an expression with no operator character at its end, an operator is
accepted or ignored. -/
theorem pressOperator_of_getLast? {s : Session} (hText : s.expression ≠ [])
    (hLast : ∀ last ∈ s.expression.getLast?, isOperatorChar last = false) (op : Operator) :
    s.press (.operator op) .strict =
      if admits (base s.expression) op.symbol then ⟨s.expression ++ op.symbol, s.result, none⟩
      else { s with fault := none } := by
  obtain ⟨text, result, fault⟩ := s
  rcases List.eq_nil_or_concat text with rfl | ⟨front, last, rfl⟩
  · exact absurd rfl hText
  · rw [List.concat_eq_append] at hLast ⊢
    have hOther : isOperatorChar last = false := hLast last List.getLast?_concat
    simp [press, pressOperator, hOther, typeIfAccepted, accepts, type]

theorem Appends.admits_base {s : Session} {op : Operator} (h : s.Appends op)
    (hText : s.expression ≠ [])
    (hLast : ∀ last ∈ s.expression.getLast?, isOperatorChar last = false) :
    admits (base s.expression) op.symbol = true := by
  cases hAdmits : admits (base s.expression) op.symbol with
  | true => rfl
  | false =>
      rw [Appends, pressOperator_of_getLast? hText hLast, hAdmits] at h
      cases op <;> simp [Operator.symbol] at h

/-- An operator in the place of another is checked against what stands in front of
it. -/
theorem pressOperator_behind_operator {first : Operator} (hFirst : first ≠ .modulo)
    (second : Operator) (text result : List Char) :
    (⟨text ++ first.symbol, result, none⟩ : Session).press (.operator second) .strict =
      if admits text second.symbol then ⟨text ++ second.symbol, result, none⟩
      else ⟨text ++ first.symbol, result, none⟩ := by
  obtain ⟨c, hSymbol, hOperator⟩ := Operator.exists_char_of_ne_modulo hFirst
  rw [hSymbol]
  cases hAdmits : admits text second.symbol <;>
    simp [press, pressOperator, hOperator, hAdmits]

/-- Of two operators that strict mode appends to a typed expression, the second takes
the place of the first, unless a point stands in front of them. Then the first
stays. -/
theorem IsTyped.pressOperator_twice {s : Session} (h : s.IsTyped) {first second : Operator}
    (hFirst : first ≠ .modulo) (hText : s.expression ≠ [])
    (hLast : ∀ last ∈ s.expression.getLast?, isOperatorChar last = false)
    (hAppendsFirst : s.Appends first) (hAppendsSecond : s.Appends second) :
    (s.press (.operator first) .strict).press (.operator second) .strict =
      if s.expression.getLast? = some '.' then s.press (.operator first) .strict
      else s.press (.operator second) .strict := by
  obtain ⟨e, hEnding⟩ := h
  have hBase := hAppendsSecond.admits_base hText hLast
  have hPlace := Ending.admits_of_admits_base hEnding hBase
  rw [pressOperator_of_getLast? hText hLast, pressOperator_of_getLast? hText hLast, if_pos hBase,
    if_pos (hAppendsFirst.admits_base hText hLast), pressOperator_behind_operator hFirst]
  by_cases hPoint : s.expression.getLast? = some '.'
  · rw [if_pos hPoint, if_neg (by simp [hPlace, hPoint])]
  · rw [if_neg hPoint, if_pos (hPlace.mpr hPoint)]

/-- Wherever strict mode would append either of two operators, pressing both is the
same as pressing the second alone, unless the expression ends with a point and they
are not the same operator. With a point at the end, the first one stays. -/
theorem last_operator_wins_iff {keys : List Key} (hKeys : ∀ key ∈ keys, key.IsAscii)
    {first second : Operator} (hFirst : first ≠ .modulo) :
    let s := new.pressAll keys .strict
    s.expression ≠ [] → (∀ last ∈ s.expression.getLast?, isOperatorChar last = false) →
      s.Appends first → s.Appends second →
        ((s.press (.operator first) .strict).press (.operator second) .strict =
            s.press (.operator second) .strict ↔
          s.expression.getLast? ≠ some '.' ∨ first = second) ∧
        (s.expression.getLast? = some '.' →
          (s.press (.operator first) .strict).press (.operator second) .strict =
            s.press (.operator first) .strict) := by
  intro s hText hLast hAppendsFirst hAppendsSecond
  have hTwice := (isTyped_new hKeys).pressOperator_twice hFirst hText hLast hAppendsFirst
    hAppendsSecond
  by_cases hPoint : s.expression.getLast? = some '.'
  · rw [if_pos hPoint] at hTwice
    refine ⟨?_, fun _ => hTwice⟩
    rw [hTwice]
    constructor
    · intro hSame
      have hTexts := congrArg expression hSame
      rw [hAppendsFirst, hAppendsSecond] at hTexts
      exact .inr (Operator.symbol_injective (List.append_cancel_left hTexts))
    · rintro (hOther | rfl)
      · exact absurd hPoint hOther
      · rfl
  · rw [if_neg hPoint] at hTwice
    exact ⟨iff_of_true hTwice (.inl hPoint), fun hEnd => absurd hEnd hPoint⟩

/-- The modulo operator takes the place of the percent sign behind `(2.5)`. -/
theorem last_operator_wins_group :
    let keys := Key.ofTyping true "(2.5)".toList
    let s := new.pressAll keys .strict
    (∀ key ∈ keys, key.IsAscii) ∧ Operator.percent ≠ .modulo ∧ s.expression ≠ [] ∧
      (∀ last ∈ s.expression.getLast?, isOperatorChar last = false) ∧
      s.Appends .percent ∧ s.Appends .modulo ∧
      ((s.press (.operator .percent) .strict).press (.operator .modulo) .strict =
          s.press (.operator .modulo) .strict ↔
        s.expression.getLast? ≠ some '.' ∨ Operator.percent = .modulo) ∧
      (s.expression.getLast? = some '.' →
        (s.press (.operator .percent) .strict).press (.operator .modulo) .strict =
          s.press (.operator .percent) .strict) := by
  intro keys s
  have hKeys : ∀ key ∈ keys, key.IsAscii := Key.isAscii_of_mem_ofTyping true _
  have hFirst : Operator.percent ≠ .modulo := by decide
  have hText : s.expression ≠ [] := by decide
  have hEnd : s.expression.getLast? = some ')' := by decide
  have hLast : ∀ last ∈ s.expression.getLast?, isOperatorChar last = false := by
    rw [hEnd]
    rintro _ ⟨⟩
    rfl
  have hPercent : s.Appends .percent := by
    rw [Appends]
    decide
  have hModulo : s.Appends .modulo := by
    rw [Appends]
    decide
  exact ⟨hKeys, hFirst, hText, hLast, hPercent, hModulo,
    last_operator_wins_iff hKeys hFirst hText hLast hPercent hModulo⟩

/-- Behind `5.` the plus sign stays where the multiplication sign should take its
place, though either of them would be appended alone. -/
theorem first_operator_stays_behind_point :
    let keys := Key.ofTyping true "5.".toList
    let s := new.pressAll keys .strict
    (∀ key ∈ keys, key.IsAscii) ∧ s.expression ≠ [] ∧
      (∀ last ∈ s.expression.getLast?, isOperatorChar last = false) ∧
      s.Appends .add ∧ s.Appends .multiply ∧
      (s.press (.operator .add) .strict).press (.operator .multiply) .strict ≠
        s.press (.operator .multiply) .strict := by
  intro keys s
  have hEnd : s.expression.getLast? = some '.' := by decide
  refine ⟨Key.isAscii_of_mem_ofTyping true _, by decide, ?_, ?_, ?_, by decide⟩
  · rw [hEnd]
    rintro _ ⟨⟩
    rfl
  · rw [Appends]
    decide
  · rw [Appends]
    decide

end Session

end KeypadCalculator
