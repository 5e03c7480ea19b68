import KeypadCalculator.Proofs.Keypad.Alternation
import KeypadCalculator.Proofs.Phrase.Adjacency
import KeypadCalculator.Proofs.Token.RoundTrip

/-!
Expressions that are being typed, as beginnings of whole ones. A whole one is a row of
operands with an operator between any two of them; whether its parentheses balance is
not asked. What strict mode has typed is always such a row, cut off at some character.
-/

namespace KeypadCalculator

open Text

/-- Digits, perhaps with a point behind the first of them. -/
inductive IsNumeral : List Char → Prop where
  | whole {digits : List Char} (hSome : digits ≠ [])
      (hDigits : ∀ c ∈ digits, isAsciiDigit c = true) : IsNumeral digits
  | decimal {digits fraction : List Char} (hSome : digits ≠ [])
      (hDigits : ∀ c ∈ digits ++ fraction, isAsciiDigit c = true) :
      IsNumeral (digits ++ '.' :: fraction)

/-- A number behind open parentheses and in front of closing ones. A minus sign may
stand directly behind an open parenthesis. -/
inductive IsOperand : List Token → Prop where
  | number {literal : List Char} (h : IsNumeral literal) : IsOperand [.number literal]
  | opened {operand : List Token} (h : IsOperand operand) : IsOperand (.openParen :: operand)
  | signed {operand : List Token} (h : IsOperand operand) :
      IsOperand (.openParen :: .operator .subtract :: operand)
  | closed {operand : List Token} (h : IsOperand operand) : IsOperand (operand ++ [.closeParen])

/-- Operands with one operator between any two of them. A minus sign may stand at the
start as well, and directly behind a modulo operator. -/
inductive IsRow : List Token → Prop where
  | operand {operand : List Token} (h : IsOperand operand) : IsRow operand
  | signed {operand : List Token} (h : IsOperand operand) : IsRow (.operator .subtract :: operand)
  | binary {row operand : List Token} (op : Operator) (hRow : IsRow row) (h : IsOperand operand) :
      IsRow (row ++ .operator op :: operand)
  | moduloSigned {row operand : List Token} (hRow : IsRow row) (h : IsOperand operand) :
      IsRow (row ++ .operator .modulo :: .operator .subtract :: operand)

theorem IsNumeral.beginsWithDigit {literal : List Char} (h : IsNumeral literal) :
    BeginsWithDigit literal := by
  cases h with
  | whole hSome hDigits =>
      obtain ⟨d, rest, rfl⟩ := List.exists_cons_of_ne_nil hSome
      exact ⟨d, rest, rfl, hDigits d List.mem_cons_self, fun c hMem => .inl (hDigits c hMem)⟩
  | @decimal digits fraction hSome hDigits =>
      obtain ⟨hWhole, hFraction⟩ := List.forall_mem_append.mp hDigits
      obtain ⟨d, rest, rfl⟩ := List.exists_cons_of_ne_nil hSome
      refine ⟨d, rest ++ '.' :: fraction, rfl, hWhole d List.mem_cons_self, ?_⟩
      exact List.forall_mem_append.mpr ⟨fun c hMem => .inl (hWhole c hMem),
        List.forall_mem_cons.mpr ⟨.inr rfl, fun c hMem => .inl (hFraction c hMem)⟩⟩

theorem IsNumeral.count_point_le {literal : List Char} (h : IsNumeral literal) :
    literal.count '.' ≤ 1 := by
  cases h with
  | whole _ hDigits => exact (count_point_of_digits hDigits).le.trans (Nat.zero_le 1)
  | decimal _ hDigits =>
      obtain ⟨hWhole, hFraction⟩ := List.forall_mem_append.mp hDigits
      rw [List.count_append, List.count_cons_self, count_point_of_digits hWhole,
        count_point_of_digits hFraction]

/-- No operand stands directly behind another. -/
def OperandsApart (tokens : List Token) : Prop :=
  tokens.IsChain fun last next => ¬ (last.endsOperand = true ∧ next.startsOperand = true)

theorem OperandsApart.not_sideBySide {tokens : List Token} (h : OperandsApart tokens) :
    ¬ SideBySide tokens := by
  rintro ⟨last, first, hLast, hFirst, front, behind, rfl⟩
  have hPair : OperandsApart [last, first] :=
    (List.isChain_append.mp (List.isChain_append.mp h).1).2.1
  exact List.isChain_pair.mp hPair ⟨hLast, hFirst⟩

theorem operandsApart_append {front behind : List Token} (hFront : OperandsApart front)
    (hBehind : OperandsApart behind)
    (h : (∀ last ∈ front.getLast?, last.endsOperand = false) ∨
      ∀ next ∈ behind.head?, next.startsOperand = false) : OperandsApart (front ++ behind) := by
  refine List.isChain_append.mpr ⟨hFront, hBehind, ?_⟩
  rintro last hLast next hNext ⟨hEnds, hStarts⟩
  rcases h with hOther | hOther
  · rw [hOther last hLast] at hEnds
    cases hEnds
  · rw [hOther next hNext] at hStarts
    cases hStarts

theorem operandsApart_cons {token : Token} {tokens : List Token} (h : OperandsApart tokens)
    (hToken : token.endsOperand = false) : OperandsApart (token :: tokens) :=
  operandsApart_append (List.isChain_singleton token) h (.inl (by simpa using hToken))

theorem operandsApart_operator {front behind : List Token} (hFront : OperandsApart front)
    (hBehind : OperandsApart behind) (op : Operator) :
    OperandsApart (front ++ .operator op :: behind) := by
  refine operandsApart_append hFront (operandsApart_cons hBehind rfl) (.inr ?_)
  rintro _ ⟨⟩
  rfl

theorem IsOperand.operandsApart {operand : List Token} (h : IsOperand operand) :
    OperandsApart operand := by
  induction h with
  | number _ => exact List.isChain_singleton _
  | opened _ ih => exact operandsApart_cons ih rfl
  | signed _ ih => exact operandsApart_cons (operandsApart_cons ih rfl) rfl
  | closed _ ih =>
      refine operandsApart_append ih (List.isChain_singleton _) (.inr ?_)
      rintro _ ⟨⟩
      rfl

theorem IsRow.operandsApart {row : List Token} (h : IsRow row) : OperandsApart row := by
  induction h with
  | operand h => exact h.operandsApart
  | signed h => exact operandsApart_cons h.operandsApart rfl
  | binary op _ h ih => exact operandsApart_operator ih h.operandsApart op
  | moduloSigned _ h ih =>
      exact operandsApart_operator ih (operandsApart_cons h.operandsApart rfl) .modulo

theorem IsOperand.isNumeral {operand : List Token} (h : IsOperand operand) {literal : List Char}
    (hMem : .number literal ∈ operand) : IsNumeral literal := by
  induction h with
  | number h =>
      obtain rfl := Token.number.inj (List.mem_singleton.mp hMem)
      exact h
  | opened _ ih | signed _ ih | closed _ ih => exact ih (by simpa using hMem)

theorem IsRow.isNumeral {row : List Token} (h : IsRow row) {literal : List Char}
    (hMem : .number literal ∈ row) : IsNumeral literal := by
  induction h with
  | operand h => exact h.isNumeral hMem
  | signed h => exact h.isNumeral (by simpa using hMem)
  | binary op _ h ih | moduloSigned _ h ih =>
      have hEither := hMem
      simp only [List.mem_append, List.mem_cons, reduceCtorEq, false_or] at hEither
      rcases hEither with hRow | hOperand
      · exact ih hRow
      · exact h.isNumeral hOperand

theorem Token.operand_of_isNumber {token : Token} (h : token.isNumber = true) :
    token.endsOperand = true ∧ token.startsOperand = true := by
  cases token <;> first | exact ⟨rfl, rfl⟩ | cases h

/-- The first tokens of a row can be told apart once they are joined. -/
theorem IsRow.separate {tokens behind : List Token} (h : IsRow (tokens ++ behind)) :
    Token.Separate tokens := by
  refine ⟨fun literal hMem => ?_, ?_⟩
  · obtain ⟨d, rest, rfl, -, hChars⟩ :=
      (h.isNumeral (List.mem_append_left behind hMem)).beginsWithDigit
    exact ⟨List.cons_ne_nil d rest, hChars⟩
  · refine (List.isChain_append.mp h.operandsApart).1.imp ?_
    rintro last next hApart ⟨hLast, hNext⟩
    exact hApart ⟨(Token.operand_of_isNumber hLast).1, (Token.operand_of_isNumber hNext).2⟩

/-- Whatever operand follows, the tokens are a row with it. -/
def Awaits (front : List Token) : Prop :=
  ∀ operand, IsOperand operand → IsRow (front ++ operand)

theorem awaits_nil : Awaits [] ∧ Awaits [.operator .subtract] :=
  ⟨fun _ h => .operand h, fun _ h => .signed h⟩

theorem Awaits.openParen {front : List Token} (h : Awaits front) :
    Awaits (front ++ [.openParen]) ∧
      Awaits (front ++ [.openParen] ++ [.operator .subtract]) := by
  refine ⟨fun operand hOperand => ?_, fun operand hOperand => ?_⟩
  · rw [List.append_assoc]
    exact h _ hOperand.opened
  · rw [List.append_assoc, List.append_assoc]
    exact h _ hOperand.signed

theorem IsRow.awaits {row : List Token} (h : IsRow row) (op : Operator) :
    Awaits (row ++ [.operator op]) := by
  intro operand hOperand
  rw [List.append_assoc]
  exact .binary op h hOperand

theorem IsRow.awaits_signed {row : List Token} (h : IsRow row) :
    Awaits (row ++ [.operator .modulo] ++ [.operator .subtract]) := by
  intro operand hOperand
  rw [List.append_assoc, List.append_assoc]
  exact .moduloSigned h hOperand

namespace Ending

/-- The letters of a modulo operator that is not whole yet. -/
def unfinished : Ending → List Char
  | .letterM => ['m']
  | .lettersMo => ['m', 'o']
  | _ => []

/-- What tokens are typed at an ending. -/
def Stands : Ending → List Token → Prop
  | .opened, tokens | .modulo, tokens => Awaits tokens ∧ Awaits (tokens ++ [.operator .subtract])
  | .operator, tokens => Awaits tokens
  | .whole, tokens => ∃ front digits, tokens = front ++ [.number digits] ∧ Awaits front ∧
      digits ≠ [] ∧ ∀ c ∈ digits, isAsciiDigit c = true
  | .point, tokens | .fraction, tokens => ∃ front digits fraction,
      tokens = front ++ [.number (digits ++ '.' :: fraction)] ∧ Awaits front ∧
        digits ≠ [] ∧ ∀ c ∈ digits ++ fraction, isAsciiDigit c = true
  | .closed, tokens | .letterM, tokens | .lettersMo, tokens => ∃ front operand,
      tokens = front ++ operand ∧ Awaits front ∧ IsOperand operand

theorem Stands.awaits {e : Ending} {tokens : List Token} (h : e.Stands tokens)
    (hAwaits : e.awaitsOperand = true) : Awaits tokens := by
  cases e with
  | opened | modulo => exact h.1
  | operator => exact h
  | _ => cases hAwaits

/-- Where no operand is awaited, one has come to its end. -/
theorem Stands.operand {e : Ending} {tokens : List Token} (h : e.Stands tokens)
    (hAwaits : e.awaitsOperand = false) :
    ∃ front operand, tokens = front ++ operand ∧ Awaits front ∧ IsOperand operand := by
  cases e with
  | whole =>
      obtain ⟨front, digits, hTokens, hFront, hSome, hDigits⟩ := h
      exact ⟨front, _, hTokens, hFront, .number (.whole hSome hDigits)⟩
  | point | fraction =>
      obtain ⟨front, digits, fraction, hTokens, hFront, hSome, hDigits⟩ := h
      exact ⟨front, _, hTokens, hFront, .number (.decimal hSome hDigits)⟩
  | closed | letterM | lettersMo => exact h
  | _ => cases hAwaits

theorem Stands.isRow {e : Ending} {tokens : List Token} (h : e.Stands tokens)
    (hAwaits : e.awaitsOperand = false) : IsRow tokens := by
  obtain ⟨front, operand, rfl, hFront, hOperand⟩ := h.operand hAwaits
  exact hFront operand hOperand

theorem awaitsOperand_of_endsOperand {e : Ending} (h : e.endsOperand = true) :
    e.awaitsOperand = false := by
  cases e <;> first | rfl | cases h

/-- Only letters of the modulo operator are typed without being a token. -/
theorem unfinished_eq_nil {e : Ending} (h : e.awaitsOperand = true ∨ e.endsOperand = true) :
    e.unfinished = [] := by
  cases e <;> first | rfl | simp [awaitsOperand, endsOperand] at h

theorem Stands.digit {e next : Ending} {tokens : List Token} {c : Char} (h : e.Stands tokens)
    (hDigit : isAsciiDigit c = true) (hMove : e.move? .digit = some next) :
    ∃ after, next.Stands after ∧ Token.join after = Token.join tokens ++ [c] := by
  have hFirst (hAwaits : Awaits tokens) : whole.Stands (tokens ++ [.number [c]]) :=
    ⟨tokens, [c], rfl, hAwaits, by simp, by simpa using hDigit⟩
  cases e with
  | opened | operator | modulo =>
      cases hMove
      exact ⟨_, hFirst (h.awaits rfl), by simp [Token.join, Token.text]⟩
  | whole =>
      cases hMove
      obtain ⟨front, digits, rfl, hFront, hSome, hDigits⟩ := h
      refine ⟨front ++ [.number (digits ++ [c])], ⟨front, _, rfl, hFront, by simp, ?_⟩, ?_⟩
      · exact List.forall_mem_append.mpr ⟨hDigits, List.forall_mem_singleton.mpr hDigit⟩
      · simp [Token.join, Token.text]
  | point | fraction =>
      cases hMove
      obtain ⟨front, digits, fraction, rfl, hFront, hSome, hDigits⟩ := h
      refine ⟨front ++ [.number (digits ++ '.' :: (fraction ++ [c]))],
        ⟨front, digits, _, rfl, hFront, hSome, ?_⟩, ?_⟩
      · rw [← List.append_assoc]
        exact List.forall_mem_append.mpr ⟨hDigits, List.forall_mem_singleton.mpr hDigit⟩
      · simp [Token.join, Token.text]
  | _ => cases hMove

/-- One more character is one more token, or continues the last one. -/
theorem Stands.next {e next : Ending} {tokens : List Token} {c : Char} (h : e.Stands tokens)
    (hNext : e.next? c = some next) :
    ∃ after, next.Stands after ∧
      Token.join after ++ next.unfinished = Token.join tokens ++ e.unfinished ++ [c] := by
  have hToken {token : Token} (hText : token.text = [c]) (hEmpty : e.unfinished = []) :
      Token.join (tokens ++ [token]) ++ [] = Token.join tokens ++ e.unfinished ++ [c] := by
    simp [Token.join, hText, hEmpty]
  cases moves_of_next? hNext with
  | digit hDigit hMove =>
      obtain ⟨after, hAfter, hText⟩ := h.digit hDigit hMove
      refine ⟨after, hAfter, ?_⟩
      cases e <;> cases hMove <;> simpa [unfinished] using hText
  | decimal =>
      obtain ⟨front, digits, rfl, hFront, hSome, hDigits⟩ := h
      exact ⟨front ++ [.number (digits ++ ['.'])],
        ⟨front, digits, [], rfl, hFront, hSome, by simpa using hDigits⟩,
        by simp [Token.join, Token.text, unfinished]⟩
  | minus hFront =>
      rcases (Bool.or_eq_true _ _).mp hFront with hEnds | hSign
      · have hRow := h.isRow (awaitsOperand_of_endsOperand hEnds)
        exact ⟨_, hRow.awaits .subtract, hToken rfl (unfinished_eq_nil (.inr hEnds))⟩
      · cases e with
        | opened | modulo => exact ⟨_, h.2, hToken rfl rfl⟩
        | _ => cases hSign
  | operator hOp _ hEnds =>
      have hRow := h.isRow (awaitsOperand_of_endsOperand hEnds)
      exact ⟨_, hRow.awaits _,
        hToken (Operator.symbol_of_ofChar? hOp) (unfinished_eq_nil (.inr hEnds))⟩
  | openParen hAwaits =>
      exact ⟨_, (h.awaits hAwaits).openParen, hToken rfl (unfinished_eq_nil (.inl hAwaits))⟩
  | closeParen hEnds =>
      obtain ⟨front, operand, rfl, hFront, hOperand⟩ :=
        h.operand (awaitsOperand_of_endsOperand hEnds)
      exact ⟨_, ⟨front, _, List.append_assoc _ _ _, hFront, hOperand.closed⟩,
        hToken rfl (unfinished_eq_nil (.inr hEnds))⟩
  | letterM hEnds =>
      refine ⟨tokens, h.operand (awaitsOperand_of_endsOperand hEnds), ?_⟩
      rw [unfinished_eq_nil (.inr hEnds), List.append_nil]
      rfl
  | lettersMo => exact ⟨tokens, h, by simp [unfinished]⟩
  | modulo =>
      have hRow : IsRow tokens := h.isRow rfl
      refine ⟨tokens ++ [.operator .modulo], ⟨hRow.awaits .modulo, hRow.awaits_signed⟩, ?_⟩
      simp [Token.join, Token.text, Operator.symbol, unfinished]

/-- A typed text is made of the tokens at its ending, and the letters of a modulo
operator that is not whole. -/
theorem exists_stands {text : List Char} {e : Ending} (h : of? text = some e) :
    ∃ tokens, e.Stands tokens ∧ text = Token.join tokens ++ e.unfinished := by
  induction text using List.reverseRecOn generalizing e with
  | nil =>
      obtain rfl : opened = e := Option.some.inj h
      exact ⟨[], awaits_nil, rfl⟩
  | append_singleton text c ih =>
      obtain ⟨front, hFront, hNext⟩ := exists_of_append_singleton h
      obtain ⟨tokens, hTokens, rfl⟩ := ih hFront
      obtain ⟨after, hAfter, hText⟩ := hTokens.next hNext
      exact ⟨after, hAfter, hText.symm⟩

/-- One more operand makes a row of the tokens, behind a modulo operator if one is
begun; or the tokens are a row already. -/
theorem Stands.exists_row {e : Ending} {tokens : List Token} (h : e.Stands tokens) :
    ∃ behind rest, IsRow (tokens ++ behind) ∧ Token.join behind = e.unfinished ++ rest := by
  have hOne : IsOperand [.number ['1']] := .number (.whole (by simp) (by simp [isAsciiDigit]))
  -- At `m` and `mo` the tokens alone would be a row as well, but its text would not go on
  -- with the letters typed.
  cases hAwaits : e.awaitsOperand with
  | true => exact ⟨[.number ['1']], ['1'], h.awaits hAwaits _ hOne,
      by rw [unfinished_eq_nil (.inl hAwaits)]; rfl⟩
  | false =>
      have hRow := h.isRow hAwaits
      cases e with
      | letterM => exact ⟨_, ['o', 'd', '1'], .binary .modulo hRow hOne, rfl⟩
      | lettersMo => exact ⟨_, ['d', '1'], .binary .modulo hRow hOne, rfl⟩
      | _ => exact ⟨[], [], by rwa [List.append_nil], rfl⟩

end Ending

/-- A character without a meaning makes no token at the end of a text. -/
theorem Token.ofText_append_ignored {c : Char} (h : Glyph.role (.character c) = .ignored)
    (hLetter : c ≠ 'd') (text : List Char) : ofText (text ++ [c]) = ofText text := by
  have hGather (glyphs : List Glyph) (run : List Char) :
      gather run (glyphs ++ [.character c]) = gather run glyphs := by
    induction glyphs generalizing run with
    | nil => simp [gather, h]
    | cons glyph glyphs ih =>
        rw [List.cons_append, gather, gather]
        cases glyph.role <;> simp [ih]
  rw [ofText, Glyph.ofText_append_of_ne hLetter, hGather, ofText]

theorem Ending.ofText_append_unfinished (e : Ending) (text : List Char) :
    Token.ofText (text ++ e.unfinished) = Token.ofText text := by
  have hM (text : List Char) : Token.ofText (text ++ ['m']) = Token.ofText text :=
    Token.ofText_append_ignored (by decide) (by decide) text
  cases e with
  | letterM => exact hM text
  | lettersMo =>
      rw [unfinished, List.append_cons, Token.ofText_append_ignored (by decide) (by decide), hM]
  | _ => exact congrArg Token.ofText (List.append_nil text)

/-- Behind an open parenthesis an operand has to begin. -/
theorem Ending.not_empty_group {text : List Char} {e : Ending} (h : of? text = some e) :
    ¬ ['(', ')'] <:+: text := by
  rintro ⟨front, behind, rfl⟩
  rw [List.append_assoc, of?, List.foldlM_append] at h
  obtain ⟨before, -, hRun⟩ := Option.bind_eq_some_iff.mp h
  obtain ⟨group, hOpen, hRest⟩ := Option.bind_eq_some_iff.mp hRun
  obtain ⟨after, hClose, -⟩ := Option.bind_eq_some_iff.mp hRest
  cases moves_of_next? hOpen with
  | openParen _ => cases hClose
  | digit hDigit _ => exact absurd hDigit (by decide)
  | operator hOp _ _ => cases hOp

namespace Session

/-- Whatever is typed in strict mode is the beginning of a row, cut off at some
character. Its numbers have a value, begin with a digit and have one point at most; no
group is empty, and no operand stands directly behind another. -/
theorem strict_begins_row {keys : List Key} (hKeys : ∀ key ∈ keys, key.IsAscii) :
    let text := (new.pressAll keys .strict).expression
    (∃ row rest, IsRow row ∧ Token.join row = text ++ rest) ∧
      (∀ literal, .number literal ∈ Token.ofText text →
        (Token.number literal).value?.isSome = true ∧ BeginsWithDigit literal ∧
          literal.count '.' ≤ 1) ∧
      ¬ ['(', ')'] <:+: text ∧ ¬ SideBySide (Token.ofText text) := by
  intro text
  obtain ⟨e, hEnding⟩ := isTyped_new hKeys
  obtain ⟨tokens, hStands, hText⟩ := Ending.exists_stands hEnding
  obtain ⟨behind, rest, hRow, hBehind⟩ := hStands.exists_row
  have hTokens : Token.ofText text = tokens := by
    rw [show text = Token.join tokens ++ e.unfinished from hText, e.ofText_append_unfinished,
      Token.ofText_join hRow.separate]
  refine ⟨⟨tokens ++ behind, rest, hRow, ?_⟩, ?_, Ending.not_empty_group hEnding, ?_⟩
  · rw [Token.join_append, hBehind, show text = Token.join tokens ++ e.unfinished from hText,
      List.append_assoc]
  · intro literal hMem
    rw [hTokens] at hMem
    have hNumeral := hRow.isNumeral (List.mem_append_left behind hMem)
    obtain ⟨d, digits, rfl, hDigit, hChars⟩ := hNumeral.beginsWithDigit
    exact ⟨value?_isSome_of_digit hDigit hChars, hNumeral.beginsWithDigit,
      hNumeral.count_point_le⟩
  · rw [hTokens]
    have hApart : OperandsApart tokens := (List.isChain_append.mp hRow.operandsApart).1
    exact hApart.not_sideBySide

/-- A percent sign gives way to `mod`, which is cut and typed again with a sign behind
it, and the last of the two points is not let in. -/
theorem strict_begins_row_retyped :
    let keys := Key.ofTyping true "-(1.5)%mod<<<mod-(0..2mod<".toList
    let text := (new.pressAll keys .strict).expression
    (∀ key ∈ keys, key.IsAscii) ∧ text = "-(1.5)mod-(0.2mo".toList ∧
      (∃ row rest, IsRow row ∧ Token.join row = text ++ rest) ∧
      (∀ literal, .number literal ∈ Token.ofText text →
        (Token.number literal).value?.isSome = true ∧ BeginsWithDigit literal ∧
          literal.count '.' ≤ 1) ∧
      ¬ ['(', ')'] <:+: text ∧ ¬ SideBySide (Token.ofText text) := by
  intro keys text
  have hKeys : ∀ key ∈ keys, key.IsAscii := Key.isAscii_of_mem_ofTyping true _
  exact ⟨hKeys, by decide, strict_begins_row hKeys⟩

end Session

end KeypadCalculator
