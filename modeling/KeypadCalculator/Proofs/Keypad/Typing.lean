import KeypadCalculator.CommandLine.Run
import KeypadCalculator.Proofs.Keypad.StrictTyping
import KeypadCalculator.Proofs.Token.RoundTrip

/-!
Typed text, its keys, and the tokens of the same text. The labels of keys are typed as
these keys, blanks cut typed text as they cut an expression, and the keys of a text write
what its tokens write, so that a line typed to a session and the same line evaluated at
once are read alike.
-/

namespace KeypadCalculator

open Text

namespace Glyph

/-- A glyph in front of a text is read as that glyph, unless it is a letter that the
modulo operator begins with. -/
theorem ofText_text_append {glyph : Glyph} (h : glyph ≠ .character 'm') (rest : List Char) :
    ofText (glyph.text ++ rest) = glyph :: ofText rest := by
  cases glyph with
  | modulo => rfl
  | character c => exact ofText_cons (fun hM => h (congrArg character hM)) rest

end Glyph

namespace Key

/-- A label is one glyph, and that glyph presses the key. -/
theorem exists_glyph_of_isAscii (ascii : Bool) {key : Key} (h : key.IsAscii) :
    ∃ glyph : Glyph, glyph.text = key.label ∧ glyph ≠ .character 'm' ∧
      ofGlyph? ascii glyph = some key := by
  cases key with
  | digit c =>
      have hDigit : isAsciiDigit c = true := h
      refine ⟨.character c, rfl, fun hM => ?_, ?_⟩
      · rw [Glyph.character.inj hM] at hDigit
        exact absurd hDigit (by decide)
      · rw [ofGlyph?, ofChar?, if_pos hDigit]
  | operator op =>
      cases op with
      | modulo => exact ⟨.modulo, rfl, by decide, rfl⟩
      | add | subtract | multiply | divide | percent =>
          exact ⟨.character _, rfl, by decide, by cases ascii <;> rfl⟩
  | decimal | openParen | closeParen | equals | backspace | clear =>
      exact ⟨.character _, rfl, by decide, by cases ascii <;> rfl⟩

theorem ofTyping_label_append (ascii : Bool) {key : Key} (h : key.IsAscii) (rest : List Char) :
    ofTyping ascii (key.label ++ rest) = key :: ofTyping ascii rest := by
  obtain ⟨glyph, hText, hM, hKey⟩ := exists_glyph_of_isAscii ascii h
  rw [ofTyping, ← hText, Glyph.ofText_text_append hM, List.filterMap_cons, hKey]
  rfl

/-- The labels of keys, typed one after the other, press these keys. -/
theorem ofTyping_flatMap_label (ascii : Bool) {keys : List Key} (h : ∀ key ∈ keys, key.IsAscii) :
    ofTyping ascii (keys.flatMap label) = keys := by
  induction keys with
  | nil => rfl
  | cons key keys ih =>
      obtain ⟨hKey, hKeys⟩ := List.forall_mem_cons.mp h
      rw [List.flatMap_cons, ofTyping_label_append ascii hKey, ih hKeys]

/-- The characters of the keys that settle or edit an expression and do not write. -/
def controlChars : List Char := ['=', 'C', 'c', '<', '⌫']

theorem exists_key_of_isSymbolChar {c : Char} (h : isSymbolChar c = true) :
    ∃ key, ofChar? false c = some key ∧ key.label = [c] := by
  simp only [isSymbolChar, isDecimalPoint, isParenthesis, Bool.or_eq_true, beq_iff_eq] at h
  rcases h with ((hDigit | rfl) | hOperator) | rfl | rfl
  · exact ⟨.digit c, by rw [ofChar?, if_pos hDigit], rfl⟩
  · exact ⟨.decimal, rfl, rfl⟩
  · obtain ⟨op, hOp⟩ := Option.isSome_iff_exists.mp hOperator
    have hSymbol := Operator.symbol_of_ofChar? hOp
    refine ⟨.operator op, ?_, hSymbol⟩
    cases op <;> cases hSymbol <;> rfl
  · exact ⟨.openParen, rfl, rfl⟩
  · exact ⟨.closeParen, rfl, rfl⟩

theorem ofChar?_eq_none {c : Char} (h : isSymbolChar c = false) (hControl : c ∉ controlChars) :
    ofChar? false c = none := by
  simp only [isSymbolChar, isDecimalPoint, isParenthesis, isOperatorChar, Bool.or_eq_false_iff,
    beq_eq_false_iff_ne, Option.isSome_eq_false_iff, Option.isNone_iff_eq_none] at h
  obtain ⟨⟨⟨hDigit, hPoint⟩, hOperator⟩, hOpen, hClose⟩ := h
  simp only [controlChars, List.mem_cons, List.not_mem_nil, or_false, not_or] at hControl
  simp [ofChar?, hDigit, hPoint, hOperator, hOpen, hClose, hControl]

/-- The character of the keypad that a typed one stands for. -/
def keypadChar (c : Char) : Char :=
  if c = '*' then '×' else if c = '/' then '÷' else c

theorem ofChar?_keypadChar (c : Char) : ofChar? false (keypadChar c) = ofChar? true c := by
  by_cases hTimes : c = '*'
  · subst hTimes
    rfl
  · by_cases hDivided : c = '/'
    · subst hDivided
      rfl
    · simp [keypadChar, ofChar?, hTimes, hDivided]

theorem eq_of_keypadChar_eq {c d : Char} (hTimes : d ≠ '×') (hDivided : d ≠ '÷')
    (h : keypadChar c = d) : c = d := by
  rw [keypadChar] at h
  split at h
  · exact absurd h.symm hTimes
  · split at h
    · exact absurd h.symm hDivided
    · exact h

theorem ofTyping_map_keypadChar (typed : List Char) :
    ofTyping false (typed.map keypadChar) = ofTyping true typed := by
  rw [ofTyping, ofTyping]
  fun_induction Glyph.ofText typed with
  | case1 rest ih => exact congrArg (Key.operator .modulo :: ·) ih
  | case2 c rest hOther ih =>
      rw [List.map_cons, Glyph.ofText, List.filterMap_cons, List.filterMap_cons, ih, ofGlyph?,
        ofGlyph?, ofChar?_keypadChar]
      -- The replacement makes no letter of the modulo operator.
      intro tail hFirst hRest
      have hM : c = 'm' := eq_of_keypadChar_eq (by decide) (by decide) hFirst
      obtain ⟨o, behind, rfl, hO, hBehind⟩ := List.map_eq_cons_iff.mp hRest
      obtain ⟨d, last, rfl, hD, -⟩ := List.map_eq_cons_iff.mp hBehind
      have hO : o = 'o' := eq_of_keypadChar_eq (by decide) (by decide) hO
      have hD : d = 'd' := eq_of_keypadChar_eq (by decide) (by decide) hD
      exact hOther last hM (by rw [hO, hD])
  | case3 => rfl

theorem ofChar?_of_isBlank (ascii : Bool) {c : Char} (h : isBlank c = true) :
    ofChar? ascii c = none := by
  have hOther : ∀ d, isBlank d = false → c ≠ d := by
    rintro d hD rfl
    exact absurd (h.symm.trans hD) (by decide)
  have hControl : c ∉ controlChars := by
    simp only [controlChars, List.mem_cons, List.not_mem_nil, or_false, not_or]
    exact ⟨hOther _ (by decide), hOther _ (by decide), hOther _ (by decide),
      hOther _ (by decide), hOther _ (by decide)⟩
  have hNone : ofChar? false c = none := ofChar?_eq_none (Glyph.isSymbolChar_of_isBlank h) hControl
  cases ascii with
  | false => exact hNone
  | true =>
      have hSame : keypadChar c = c := by
        rw [keypadChar, if_neg (hOther '*' (by decide)), if_neg (hOther '/' (by decide))]
      rw [← ofChar?_keypadChar, hSame, hNone]

theorem cutsAtBlanks_ofTyping (ascii : Bool) : CutsAtBlanks (ofTyping ascii) := by
  refine ⟨rfl, fun {c} h front rest => ?_⟩
  rw [ofTyping, Glyph.ofText_append_blank h, List.filterMap_append, List.filterMap_cons, ofGlyph?,
    ofChar?_of_isBlank ascii h]
  rfl

/-- The keys of a text write its tokens, if no key of it does something else. -/
theorem flatMap_label_ofTyping {text : List Char} (h : ∀ c ∈ text, c ∉ controlChars) :
    (ofTyping false text).flatMap label = Token.join (Token.ofText text) := by
  rw [Token.join_ofText, ofTyping]
  fun_induction Glyph.ofText text with
  | case1 rest ih =>
      have hRest : ∀ c ∈ rest, c ∉ controlChars := fun c hMem => h c (by simp [hMem])
      exact congrArg (['m', 'o', 'd'] ++ ·) (ih hRest)
  | case2 c rest _ ih =>
      obtain ⟨hC, hRest⟩ := List.forall_mem_cons.mp h
      rw [List.filterMap_cons, List.filter_cons, ofGlyph?, Glyph.isRead_character]
      cases hSymbol : isSymbolChar c with
      | true =>
          obtain ⟨key, hKey, hLabel⟩ := exists_key_of_isSymbolChar hSymbol
          rw [hKey]
          exact congrArg₂ (· ++ ·) hLabel (ih hRest)
      | false =>
          rw [ofChar?_eq_none hSymbol hC]
          exact ih hRest
  | case3 => rfl

end Key

open Key

theorem CommandLine.normalized_eq (settings : Settings) (text : List Char) :
    normalized settings text =
      if settings.asciiOperators then text.map keypadChar else text :=
  rfl

/-- Replaced by the characters of the keypad, `*` and `/` press the keys that they stand
for. -/
theorem ofTyping_normalized (settings : Settings) (text : List Char) :
    ofTyping false (CommandLine.normalized settings text) =
      ofTyping settings.asciiOperators text := by
  rw [CommandLine.normalized_eq]
  cases settings.asciiOperators with
  | false => rfl
  | true => exact ofTyping_map_keypadChar text

theorem not_mem_controlChars_normalized {settings : Settings} {text : List Char}
    (h : ∀ c ∈ text, c ∉ controlChars) :
    ∀ c ∈ CommandLine.normalized settings text, c ∉ controlChars := by
  have hSigns : '×' ∉ controlChars ∧ '÷' ∉ controlChars := by decide
  rw [CommandLine.normalized_eq]
  split
  · rw [List.forall_mem_map]
    intro c hMem hControl
    refine h c hMem ?_
    rwa [eq_of_keypadChar_eq (fun hTimes => hSigns.1 (hTimes ▸ hControl))
      (fun hDivided => hSigns.2 (hDivided ▸ hControl)) rfl]
  · exact h

/-- Keys and text say the same. Keys are read back from their labels. A row of blanks cuts
typed text, so that the keys of a text are those of its words, however the blanks between
them are spread. And unless a key settles or edits, the keys of a text write what the
tokens of the text write once `*` and `/` are replaced as the settings ask for. -/
theorem typing_agrees_with_text :
    (∀ (ascii : Bool) (keys : List Key), (∀ key ∈ keys, key.IsAscii) →
      ofTyping ascii (keys.flatMap label) = keys) ∧
    (∀ (ascii : Bool) (front gap rest : List Char), gap ≠ [] → (∀ c ∈ gap, isBlank c = true) →
      ofTyping ascii (front ++ (gap ++ rest)) = ofTyping ascii front ++ ofTyping ascii rest) ∧
    (∀ (ascii : Bool) (text : List Char),
      (words text).flatMap (ofTyping ascii) = ofTyping ascii text) ∧
    ∀ (settings : Settings) (text : List Char), (∀ c ∈ text, c ∉ controlChars) →
      (ofTyping settings.asciiOperators text).flatMap label =
        Token.join (Token.ofText (CommandLine.normalized settings text)) := by
  refine ⟨fun ascii _ hKeys => ofTyping_flatMap_label ascii hKeys,
    fun ascii front _ rest hSome hGap =>
      (cutsAtBlanks_ofTyping ascii).append_blanks hSome hGap front rest,
    fun ascii => (cutsAtBlanks_ofTyping ascii).flatMap_words, fun settings text hText => ?_⟩
  rw [← ofTyping_normalized]
  exact flatMap_label_ofTyping (not_mem_controlChars_normalized hText)

/-- Keys that write and keys that do not, letters of `mod` on both sides of two blanks, and
a line with an operator that is replaced and characters that mean nothing. -/
theorem typing_agrees_with_text_line :
    let keys := [.digit '7', .operator .modulo, .decimal, .backspace, .clear]
    let gap := ['\u3000', '\n']
    let text := "10 m mod(2*x.5)".toList
    (∀ key ∈ keys, key.IsAscii) ∧ ofTyping false (keys.flatMap label) = keys ∧
      gap ≠ [] ∧ (∀ c ∈ gap, isBlank c = true) ∧
      ofTyping true ("10m".toList ++ (gap ++ "od/3".toList)) =
        ofTyping true "10m".toList ++ ofTyping true "od/3".toList ∧
      (∀ c ∈ text, c ∉ controlChars) ∧
      (ofTyping true text).flatMap label =
        Token.join (Token.ofText (CommandLine.normalized {} text)) := by
  intro keys gap text
  have hKeys : ∀ key ∈ keys, key.IsAscii := by
    have hDigit : isAsciiDigit '7' = true := by decide
    simp only [keys, List.forall_mem_cons]
    exact ⟨hDigit, trivial, trivial, trivial, trivial, by simp⟩
  have hSome : gap ≠ [] := by decide
  have hGap : ∀ c ∈ gap, isBlank c = true := List.all_eq_true.1 (by decide)
  have hAll : text.all (fun c => decide (c ∉ controlChars)) = true := by decide +kernel
  have hText : ∀ c ∈ text, c ∉ controlChars := fun c hMem =>
    of_decide_eq_true (List.all_eq_true.1 hAll c hMem)
  obtain ⟨hLabels, hBlanks, -, hLine⟩ := typing_agrees_with_text
  exact ⟨hKeys, hLabels false keys hKeys, hSome, hGap,
    hBlanks true "10m".toList gap "od/3".toList hSome hGap, hText, hLine {} text hText⟩

end KeypadCalculator
