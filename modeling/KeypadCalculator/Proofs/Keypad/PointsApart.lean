import KeypadCalculator.Proofs.Keypad.Appending
import KeypadCalculator.Proofs.Keypad.Language

/-!
Well-formed expressions typed in strict mode. Every key of one is appended as it
is, except for a point that follows another with no operator character between
them: the letters of the modulo operator do not end the stretch in which one
point may stand.
-/

namespace KeypadCalculator

open Text

/-- Between any two points stands an operator of one character. -/
def PointsApart (text : List Char) : Prop :=
  ∀ front between behind, text = front ++ '.' :: (between ++ '.' :: behind) →
    ∃ c ∈ between, isOperatorChar c = true

theorem hasPoint_iff (text : List Char) : Session.hasPoint text = true ↔
    ∃ front between, text = front ++ '.' :: between ∧ ∀ c ∈ between, isOperatorChar c = false := by
  rw [Session.hasPoint, List.contains_iff_mem]
  constructor
  · intro hMem
    obtain ⟨stretch, after, hStretch⟩ := List.append_of_mem hMem
    have hText : text.reverse.takeWhile (!isOperatorChar ·) ++
        text.reverse.dropWhile (!isOperatorChar ·) = text.reverse :=
      List.takeWhile_append_dropWhile
    have hAll := @List.all_takeWhile _ (!isOperatorChar ·) text.reverse
    rw [hStretch] at hText hAll
    generalize text.reverse.dropWhile (!isOperatorChar ·) = behind at hText
    refine ⟨(after ++ behind).reverse, stretch.reverse, ?_, ?_⟩
    · rw [← List.reverse_inj, ← hText]
      simp
    · intro c hMem
      have hChar := List.all_eq_true.mp hAll c
        (List.mem_append_left _ (List.mem_reverse.mp hMem))
      simpa using hChar
  · rintro ⟨front, between, rfl, hBetween⟩
    have hPoint : isOperatorChar '.' = false := by decide
    rw [List.reverse_append, List.reverse_cons, List.append_assoc,
      List.takeWhile_append_of_pos fun c hMem => by simpa using hBetween c (by simpa using hMem)]
    simp [hPoint]

theorem PointsApart.hasPoint {text rest : List Char} (h : PointsApart (text ++ '.' :: rest)) :
    Session.hasPoint text = false := by
  rw [Bool.eq_false_iff]
  intro hPoint
  obtain ⟨front, between, rfl, hBetween⟩ := (hasPoint_iff text).mp hPoint
  obtain ⟨c, hMem, hOperator⟩ := h front between rest (by simp)
  rw [hBetween c hMem] at hOperator
  cases hOperator

namespace Session

/-- Where points stand apart, what is typed behind an expression is appended to
it as it is. -/
theorem expression_pressAll_ofTyping {s : Session} {e last : Ending} {text : List Char}
    (h : Ending.of? s.expression = some e) (hRun : text.foldlM Ending.next? e = some last)
    (hFront : e.awaitsOperand = true ∨ e.endsOperand = true) (hEnds : last.endsOperand = true)
    (hApart : PointsApart (s.expression ++ text)) (ascii : Bool) :
    (s.pressAll (Key.ofTyping ascii text) .strict).expression = s.expression ++ text := by
  rw [Key.ofTyping]
  fun_induction Glyph.ofText text generalizing s e with
  | case1 rest ih =>
      obtain ⟨hOperand, hRest⟩ := Ending.run_modulo hRun
      have hSymbol : ['m', 'o', 'd'].foldlM Ending.next? e = some .modulo := by
        cases e <;> first | rfl | cases hOperand
      have hPress : (s.press (.operator .modulo) .strict).expression =
          s.expression ++ ['m', 'o', 'd'] := expression_press h trivial hSymbol (by simp)
      have hEnding : Ending.of? (s.press (.operator .modulo) .strict).expression =
          some .modulo := by
        rw [hPress, Ending.of?_append h, hSymbol]
      have hTail := ih hEnding hRest (.inl rfl) (by rw [hPress]; simpa using hApart)
      rw [hPress, List.append_assoc] at hTail
      exact hTail
  | case2 c rest hOther ih =>
      rw [List.foldlM_cons] at hRun
      obtain ⟨next, hNext, hRest⟩ := Option.bind_eq_some_iff.mp hRun
      rcases Key.exists_of_next? hNext hFront ascii with
        ⟨rfl, rfl⟩ | ⟨hNextFront, key, hKey, hLabel, hAscii⟩
      · -- The letters would have to be a modulo operator, which is one glyph.
        obtain ⟨hLetters, -⟩ := Ending.run_letterM hRest fun tail hTail => hOther tail rfl hTail
        rcases hLetters with rfl | rfl <;> cases Option.some.inj hRest <;> cases hEnds
      · have hLabelRun : key.label.foldlM Ending.next? e = some next := by
          simpa [hLabel] using hNext
        have hPoint : key = .decimal → Session.hasPoint s.expression = false := by
          rintro rfl
          obtain rfl : '.' = c := (List.cons.inj hLabel).1
          exact hApart.hasPoint
        have hPress := expression_press h hAscii hLabelRun hPoint
        have hEnding : Ending.of? (s.press key .strict).expression = some next := by
          rw [hPress, Ending.of?_append h, hLabelRun]
        rw [hLabel] at hPress
        have hTail := ih hEnding hRest hNextFront (by rw [hPress]; simpa using hApart)
        rw [hPress, List.append_assoc] at hTail
        rw [List.filterMap_cons, Key.ofGlyph?, hKey]
        exact hTail
  | case3 => exact (List.append_nil _).symm

/-- A text that comes out as it was typed is made of the labels of its keys. -/
theorem labels_of_expression_eq {ascii : Bool} {text : List Char} {mode : InputMode}
    (h : (Session.new.pressAll (Key.ofTyping ascii text) mode).expression = text) :
    (Key.ofTyping ascii text).flatMap Key.label = text := by
  have hLength := Key.length_labels_ofTyping_le ascii text
  rcases Session.new.pressAll_append_or_length_lt (Key.ofTyping ascii text) mode with hAll | hLess
  · exact hAll.symm.trans h
  · rw [h] at hLess
    change text.length < 0 + _ at hLess
    omega

/-- After keys whose labels are all there, some of the keys have all of theirs. -/
theorem expression_of_labels {ascii : Bool} {text : List Char} {mode : InputMode}
    (h : (Session.new.pressAll (Key.ofTyping ascii text) mode).expression = text)
    {front rest : List Key} (hKeys : Key.ofTyping ascii text = front ++ rest) :
    (Session.new.pressAll front mode).expression = front.flatMap Key.label := by
  have hLabels := labels_of_expression_eq h
  rw [hKeys] at h hLabels
  exact pressAll_eq_labels_of_append (h.trans hLabels.symm)

/-- A second point in a stretch without an operator character is dropped. -/
theorem pointsApart_of_expression_eq {ascii : Bool} {text : List Char} {mode : InputMode}
    (h : (Session.new.pressAll (Key.ofTyping ascii text) mode).expression = text) :
    PointsApart text := by
  intro front between behind hText
  by_cases hOperator : ∃ c ∈ between, isOperatorChar c = true
  · exact hOperator
  · exfalso
    have hSplit : text = (front ++ '.' :: between) ++ '.' :: behind := by simpa using hText
    have hKeys : Key.ofTyping ascii text = Key.ofTyping ascii (front ++ '.' :: between) ++
        .decimal :: Key.ofTyping ascii behind := by
      rw [hSplit, Key.ofTyping_append_point]
    have hBefore := expression_of_labels h hKeys
    -- The labels in front of the second point are the text in front of it.
    have hFirst : (Key.ofTyping ascii (front ++ '.' :: between)).flatMap Key.label =
        front ++ '.' :: between := by
      have hLabels := labels_of_expression_eq h
      rw [hKeys, List.flatMap_append, List.flatMap_cons, hSplit] at hLabels
      have hFrontLength := Key.length_labels_ofTyping_le ascii (front ++ '.' :: between)
      have hBehindLength := Key.length_labels_ofTyping_le ascii behind
      have hLength := congrArg List.length hLabels
      simp only [List.length_append, List.length_cons, Key.label, List.length_nil] at hLength
      refine (List.append_inj hLabels ?_).1
      simp only [List.length_append, List.length_cons] at hFrontLength ⊢
      omega
    have hPoint : Session.hasPoint (front ++ '.' :: between) = true := by
      refine (hasPoint_iff _).mpr ⟨front, between, rfl, fun c hMem => ?_⟩
      rw [Bool.eq_false_iff]
      exact fun hChar => hOperator ⟨c, hMem, hChar⟩
    have hPressed : (Session.new.pressAll (Key.ofTyping ascii (front ++ '.' :: between) ++
        [.decimal]) mode).expression = front ++ '.' :: between := by
      rw [pressAll_append]
      change (Session.press _ .decimal mode).expression = _
      rw [press, pressDecimal, hBefore, hFirst, if_pos hPoint, hBefore, hFirst]
    have hAppended := expression_of_labels h
      (hKeys.trans (List.append_assoc _ [Key.decimal] _).symm)
    rw [hPressed, List.flatMap_append, hFirst] at hAppended
    have hLength := congrArg List.length hAppended
    simp [Key.label] at hLength

end Session

/-- A well-formed expression comes out of strict mode as it was typed exactly if
its points stand apart. Then each key has appended its label, none was dropped or
replaced, and settling shows what the expression evaluates to. -/
theorem expression_typed_iff_pointsApart {text : List Char} (h : Spells .sentence text)
    (ascii : Bool) :
    ((Session.new.pressAll (Key.ofTyping ascii text) .strict).expression = text ↔
        PointsApart text) ∧
      (PointsApart text →
        (∀ front rest, Key.ofTyping ascii text = front ++ rest →
          (Session.new.pressAll front .strict).expression = front.flatMap Key.label) ∧
        (Session.new.pressAll (Key.ofTyping ascii text) .strict).press .equals .strict =
          ⟨text, (evaluate text).display, (evaluate text).fault?⟩) := by
  have hBegins : Part.sentence.Begins .opened := rfl
  obtain ⟨last, hRun, hEnds⟩ := h.exists_run hBegins
  have hStart : Ending.of? Session.new.expression = some .opened := rfl
  have hTyped (hApart : PointsApart text) :
      (Session.new.pressAll (Key.ofTyping ascii text) .strict).expression = text :=
    Session.expression_pressAll_ofTyping hStart hRun (.inl rfl) hEnds hApart ascii
  refine ⟨⟨Session.pointsApart_of_expression_eq, hTyped⟩, fun hApart => ⟨?_, ?_⟩⟩
  · intro front rest hKeys
    exact Session.expression_of_labels (hTyped hApart) hKeys
  · have hText : text ≠ [] := by
      rintro rfl
      cases Option.some.inj hRun
      cases hEnds
    have hExpression := hTyped hApart
    generalize Session.new.pressAll (Key.ofTyping ascii text) .strict = s at hExpression
    subst hExpression
    rw [Session.press, Session.pressEquals, if_neg (by simpa using hText)]

/-- The points of the sum in `-(1.5+2.5)mod-3` stand apart. -/
theorem expression_typed_iff_pointsApart_sum :
    Spells .sentence "-(1.5+2.5)mod-3".toList ∧ PointsApart "-(1.5+2.5)mod-3".toList ∧
      (Session.new.pressAll (Key.ofTyping true "-(1.5+2.5)mod-3".toList) .strict).press
          .equals .strict =
        ⟨"-(1.5+2.5)mod-3".toList, (evaluate "-(1.5+2.5)mod-3".toList).display,
          (evaluate "-(1.5+2.5)mod-3".toList).fault?⟩ := by
  have hSum : Spells .sentence (['1', '.', '5'] ++ Operator.add.symbol ++ ['2', '.', '5']) :=
    .binary .add (.operand (.digits_point (by decide) (by decide)))
      (.digits_point (by decide) (by decide))
  have hText : Spells .sentence "-(1.5+2.5)mod-3".toList :=
    .moduloNegative (.signed (.group hSum)) (.digit (show isAsciiDigit '3' = true by decide))
  have hTyped : (Session.new.pressAll
      (Key.ofTyping true "-(1.5+2.5)mod-3".toList) .strict).expression =
        "-(1.5+2.5)mod-3".toList := by decide
  have hApart := (expression_typed_iff_pointsApart hText true).1.mp hTyped
  exact ⟨hText, hApart, ((expression_typed_iff_pointsApart hText true).2 hApart).2⟩

/-- Strict mode drops the second point of `1.5mod2.5`, so that `25` is typed. -/
theorem expression_typed_modulo :
    Spells .sentence "1.5mod2.5".toList ∧
      (Session.new.pressAll (Key.ofTyping true "1.5mod2.5".toList) .strict).expression =
        "1.5mod25".toList ∧
      (Session.new.pressAll (Key.ofTyping true "1.5mod2.5".toList) .strict).expression ≠
        "1.5mod2.5".toList := by
  have hText : Spells .sentence "1.5mod2.5".toList :=
    .binary .modulo (.operand (.digits_point (show isAsciiDigit '1' = true by decide) (by decide)))
      (.digits_point (show isAsciiDigit '2' = true by decide) (by decide))
  exact ⟨hText, by decide, by decide⟩

end KeypadCalculator
