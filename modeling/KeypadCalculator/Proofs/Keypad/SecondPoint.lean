import KeypadCalculator.Proofs.Keypad.Ending
import KeypadCalculator.Proofs.Token.RoundTrip
import Mathlib.Data.List.Induction

/-!
The point that may follow an expression. A point is looked for in front of the digits
at the end, and counts only with a digit in front of it. Of a number that begins with a
point, or has two points in a row, the digits behind the points are taken for the whole
number, and one point more is admitted.
-/

namespace KeypadCalculator

open Text

namespace Glyph

/-- A row of glyphs is cut in front of the literal at its end. -/
theorem exists_literal_end (glyphs : List Glyph) :
    ∃ (front : List Glyph) (literal : List Char), glyphs = front ++ literal.map character ∧
      (∀ c ∈ literal, IsLiteralChar c) ∧ ∀ last ∈ front.getLast?, ∀ c, last.role ≠ .literal c := by
  induction glyphs using List.reverseRecOn with
  | nil => exact ⟨[], [], rfl, by simp, by simp⟩
  | append_singleton glyphs glyph ih =>
      by_cases hLiteral : ∃ c, glyph.role = .literal c
      · obtain ⟨c, hRole⟩ := hLiteral
        obtain ⟨front, literal, rfl, hChars, hFront⟩ := ih
        refine ⟨front, literal ++ [c], ?_, ?_, hFront⟩
        · rw [eq_character_of_role hRole]
          simp
        · exact List.forall_mem_append.mpr ⟨hChars,
            List.forall_mem_singleton.mpr (Token.isLiteralChar_of_role hRole)⟩
      · refine ⟨glyphs ++ [glyph], [], by simp, by simp, ?_⟩
        rw [List.getLast?_concat]
        rintro last ⟨⟩ c hRole
        exact hLiteral ⟨c, hRole⟩

theorem exists_token_of_isRead {glyph : Glyph} (h : glyph.isRead = true)
    (hOther : ∀ c, glyph.role ≠ .literal c) : ∃ token, glyph.role = .token token := by
  rw [isRead] at h
  cases hRole : glyph.role with
  | literal c => exact absurd hRole (hOther c)
  | token token => exact ⟨token, rfl⟩
  | gap | ignored => simp [hRole] at h

end Glyph

/-- A literal behind a token is the last token. -/
theorem Token.getLast?_gather {front : List Glyph} {literal : List Char}
    (hFront : ∀ last ∈ front.getLast?, ∃ token, last.role = .token token)
    (hLiteral : ∀ c ∈ literal, IsLiteralChar c) (hSome : literal ≠ []) :
    (gather [] (front ++ literal.map .character)).getLast? = some (.number literal) := by
  have hLast : gather [] (literal.map .character) = [.number literal] := by
    have hGather := gather_literal hLiteral [] []
    rw [List.append_nil] at hGather
    rw [hGather]
    simp [gather, ofRun, hSome]
  rcases List.eq_nil_or_concat front with rfl | ⟨front, last, rfl⟩
  · rw [List.nil_append, hLast]
    rfl
  · rw [List.concat_eq_append] at hFront ⊢
    obtain ⟨token, hRole⟩ := hFront last List.getLast?_concat
    rw [List.append_assoc, List.singleton_append, gather_append (.inr ⟨token, hRole⟩), gather,
      hRole]
    change (_ ++ ([] ++ token :: gather [] (literal.map .character))).getLast? = _
    rw [hLast]
    simp

/-- Behind the last point of a literal there are digits. -/
theorem exists_digits_end {literal : List Char} (h : ∀ c ∈ literal, IsLiteralChar c) :
    ∃ before digits, literal = before ++ digits ∧ (∀ c ∈ digits, isAsciiDigit c = true) ∧
      (before = [] ∨ ∃ front, before = front ++ ['.']) := by
  induction literal using List.reverseRecOn with
  | nil => exact ⟨[], [], rfl, by simp, .inl rfl⟩
  | append_singleton literal c ih =>
      obtain ⟨hFront, hChar⟩ := List.forall_mem_append.mp h
      rcases hChar c List.mem_cons_self with hDigit | rfl
      · obtain ⟨before, digits, rfl, hDigits, hBefore⟩ := ih hFront
        refine ⟨before, digits ++ [c], by simp, ?_, hBefore⟩
        exact List.forall_mem_append.mpr ⟨hDigits, List.forall_mem_singleton.mpr hDigit⟩
      · exact ⟨literal ++ ['.'], [], by simp, by simp, .inr ⟨literal, rfl⟩⟩

/-- Glyphs with a digit at the end are cut in front of the literal there, and the
literal behind its last point. -/
theorem exists_number_end {glyphs : List Glyph} {c : Char}
    (hLast : glyphs.getLast? = some (.character c)) (hDigit : isAsciiDigit c = true) :
    ∃ (front : List Glyph) (before digits : List Char),
      glyphs = front ++ (before ++ digits).map .character ∧
        (∀ last ∈ front.getLast?, ∀ d, last.role ≠ .literal d) ∧
        (∀ d ∈ before, IsLiteralChar d) ∧ digits ≠ [] ∧ (∀ d ∈ digits, isAsciiDigit d = true) ∧
        (before = [] ∨ ∃ inner, before = inner ++ ['.']) := by
  obtain ⟨front, literal, rfl, hLiteral, hFront⟩ := Glyph.exists_literal_end glyphs
  obtain ⟨before, digits, rfl, hDigits, hBefore⟩ := exists_digits_end hLiteral
  refine ⟨front, before, digits, rfl, hFront,
    fun d hMem => hLiteral d (List.mem_append_left _ hMem), ?_, hDigits, hBefore⟩
  rintro rfl
  rw [List.append_nil] at hLast
  rcases hBefore with rfl | ⟨inner, rfl⟩
  · rw [List.map_nil, List.append_nil] at hLast
    exact hFront _ hLast c (Glyph.role_digit hDigit)
  · obtain rfl : '.' = c := by simpa [← List.append_assoc] using hLast
    exact absurd hDigit (by decide)

theorem endsWithDecimals_append_digits {digits : List Char}
    (h : ∀ c ∈ digits, isAsciiDigit c = true) (text : List Char) :
    endsWithDecimals (text ++ digits) = endsWithDecimals text := by
  induction digits generalizing text with
  | nil => rw [List.append_nil]
  | cons c digits ih =>
      rw [List.append_cons, ih (fun d hMem => h d (List.mem_cons_of_mem _ hMem)),
        Ending.endsWithDecimals_append_digit (h c List.mem_cons_self)]

/-- A point may follow nothing but a digit. -/
theorem exists_digit_of_admits_point {text : List Char} (h : admits text ['.'] = true) :
    ∃ front c, text = front ++ [c] ∧ isAsciiDigit c = true ∧ endsWithDecimals text = false := by
  have hPoint : Continuation.ofText ['.'] = .decimal := by decide
  rcases List.eq_nil_or_concat text with rfl | ⟨front, c, rfl⟩
  · exact absurd h (by decide)
  · rw [List.concat_eq_append] at h ⊢
    refine ⟨front, c, rfl, ?_⟩
    simp only [admits, List.getLast?_concat, hPoint] at h
    split at h
    · rename_i hDigit
      exact ⟨hDigit, by simpa using h⟩
    · split at h
      · cases h
      · split at h <;> cases h

/-- In front of the digits at the end stands nothing of the literal, or a point that
no digit stands in front of. -/
theorem eq_nil_or_point_of_endsWithDecimals {front before : List Char}
    (hLiteral : ∀ c ∈ before, IsLiteralChar c)
    (hEnd : before = [] ∨ ∃ inner, before = inner ++ ['.'])
    (h : endsWithDecimals (front ++ before) = false) :
    before = [] ∨ before = ['.'] ∨ ['.', '.'] <:+ before := by
  rcases hEnd with rfl | ⟨inner, rfl⟩
  · exact .inl rfl
  · right
    rcases List.eq_nil_or_concat inner with rfl | ⟨inner, c, rfl⟩
    · exact .inl rfl
    · rw [List.concat_eq_append] at hLiteral h ⊢
      rcases hLiteral c (by simp) with hDigit | rfl
      · rw [← List.append_assoc, ← List.append_assoc,
          Ending.endsWithDecimals_append_point hDigit] at h
        cases h
      · exact .inr ⟨inner, by simp⟩

/-- The point that may follow an expression goes to the literal at its end. It is the
only one of that literal unless there is a point in front of the last digits, which
then begins the literal or stands behind another point. -/
theorem getLast?_ofText_admitted_point {glyphs : List Glyph}
    (hSymbols : ∀ c, .character c ∈ glyphs → isSymbolChar c = true)
    (hAdmits : admits (glyphs.flatMap Glyph.text) ['.'] = true) :
    ∃ before digits,
      (Token.ofText (glyphs.flatMap Glyph.text ++ ['.'])).getLast? =
          some (.number (before ++ digits ++ ['.'])) ∧
        digits ≠ [] ∧ (∀ c ∈ digits, isAsciiDigit c = true) ∧
        (before = [] ∨ before = ['.'] ∨ ['.', '.'] <:+ before) ∧
        ((before ++ digits ++ ['.']).count '.' = 1 ↔ before = []) := by
  have hM : Glyph.character 'm' ∉ glyphs := fun hMem => absurd (hSymbols 'm' hMem) (by decide)
  have hRead : ∀ glyph ∈ glyphs, glyph.isRead = true := by
    intro glyph hMem
    cases glyph with
    | modulo => rfl
    | character c => rw [Glyph.isRead_character, hSymbols c hMem]
  obtain ⟨text, c, hText, hDigit, hDecimals⟩ := exists_digit_of_admits_point hAdmits
  have hLast : glyphs.getLast? = some (.character c) := by
    have hLetter : c ≠ 'd' := ne_of_isAsciiDigit hDigit (by decide)
    rw [← Glyph.ofText_flatMap_text hM, hText, Glyph.ofText_append_of_ne hLetter,
      List.getLast?_concat]
  obtain ⟨front, before, digits, rfl, hFront, hLiteral, hSome, hDigits, hBefore⟩ :=
    exists_number_end hLast hDigit
  refine ⟨before, digits, ?_, hSome, hDigits, ?_, ?_⟩
  · have hTokens : ∀ last ∈ front.getLast?, ∃ token, last.role = .token token := fun last hEnd =>
      Glyph.exists_token_of_isRead
        (hRead last (List.mem_append_left _ (List.mem_of_getLast? hEnd))) (hFront last hEnd)
    have hNumber : ∀ d ∈ before ++ digits ++ ['.'], IsLiteralChar d :=
      List.forall_mem_append.mpr ⟨List.forall_mem_append.mpr
        ⟨hLiteral, fun d hMem => .inl (hDigits d hMem)⟩, List.forall_mem_singleton.mpr (.inr rfl)⟩
    rw [Token.ofText, Glyph.ofText_append_of_ne (by decide), Glyph.ofText_flatMap_text hM,
      List.append_assoc]
    simpa using Token.getLast?_gather hTokens hNumber (by simp)
  · rw [List.flatMap_append, Glyph.flatMap_text_map_character, ← List.append_assoc,
      endsWithDecimals_append_digits hDigits] at hDecimals
    exact eq_nil_or_point_of_endsWithDecimals hLiteral hBefore hDecimals
  · rw [List.count_append, List.count_append, count_point_of_digits hDigits]
    rcases hBefore with rfl | ⟨inner, rfl⟩ <;> simp

/-- Behind `7mod1..5` a point may follow, and goes to a number with two points. -/
theorem getLast?_ofText_admitted_point_double :
    let glyphs := [.character '7', .modulo, .character '1', .character '.', .character '.',
      .character '5']
    (∀ c, .character c ∈ glyphs → isSymbolChar c = true) ∧
      admits (glyphs.flatMap Glyph.text) ['.'] = true ∧
      ∃ before digits,
        (Token.ofText (glyphs.flatMap Glyph.text ++ ['.'])).getLast? =
            some (.number (before ++ digits ++ ['.'])) ∧
          digits ≠ [] ∧ (∀ c ∈ digits, isAsciiDigit c = true) ∧
          (before = [] ∨ before = ['.'] ∨ ['.', '.'] <:+ before) ∧
          ((before ++ digits ++ ['.']).count '.' = 1 ↔ before = []) := by
  intro glyphs
  have hRead : ∀ glyph ∈ glyphs, glyph.isRead = true := by decide
  have hSymbols : ∀ c, .character c ∈ glyphs → isSymbolChar c = true := fun c hMem =>
    (Glyph.isRead_character c).symm.trans (hRead _ hMem)
  have hAdmits : admits (glyphs.flatMap Glyph.text) ['.'] = true := by decide
  exact ⟨hSymbols, hAdmits, getLast?_ofText_admitted_point hSymbols hAdmits⟩

/-- Behind `.5` a point may follow, and it is the second one of the number. -/
theorem admits_point_behind_leading_point :
    let glyphs : List Glyph := [.character '.', .character '5']
    (∀ c, .character c ∈ glyphs → isSymbolChar c = true) ∧
      admits (glyphs.flatMap Glyph.text) ['.'] = true ∧
      ¬ ∃ literal,
        (Token.ofText (glyphs.flatMap Glyph.text ++ ['.'])).getLast? = some (.number literal) ∧
          literal.count '.' = 1 := by
  intro glyphs
  have hLast : (Token.ofText (glyphs.flatMap Glyph.text ++ ['.'])).getLast? =
      some (.number ['.', '5', '.']) := by decide
  have hRead : ∀ glyph ∈ glyphs, glyph.isRead = true := by decide
  refine ⟨fun c hMem => (Glyph.isRead_character c).symm.trans (hRead _ hMem), by decide, ?_⟩
  rintro ⟨literal, hLiteral, hCount⟩
  rw [hLast] at hLiteral
  cases hLiteral
  exact absurd hCount (by decide)

end KeypadCalculator
