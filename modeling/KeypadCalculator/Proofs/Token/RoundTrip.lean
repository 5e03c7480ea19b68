import KeypadCalculator.Proofs.Token.Joining
import Mathlib.Data.List.Chain

/-!
Reading a text and joining its tokens, in both orders. What joining leaves out is
told by the text alone: its blanks, and the characters that mean nothing where they
stand. Tokens are read back as they were, unless two literals would run together.
-/

namespace KeypadCalculator

open Text

/-- A character that belongs to a token wherever it stands. -/
def isSymbolChar (c : Char) : Bool :=
  isAsciiDigit c || isDecimalPoint c || isOperatorChar c || isParenthesis c

/-- The position is part of an occurrence of the modulo operator, which begins at
most two positions in front of it. -/
def inModulo (text : List Char) (i : Nat) : Bool :=
  (List.range (i + 1)).any fun first =>
    i < first + 3 && Operator.modulo.symbol.isPrefixOf (text.drop first)

/-- The character at the position means nothing: it belongs to no token and does not
separate tokens either. -/
def isSkipped (text : List Char) (c : Char) (i : Nat) : Bool :=
  !(isSymbolChar c || isBlank c || inModulo text i)

/-- The characters of a text that pass a test of what they are and where they
stand. -/
def pick (p : Char → Nat → Bool) (text : List Char) : List Char :=
  (text.zipIdx.filter fun place => p place.1 place.2).map Prod.fst

theorem pick_cons (p : Char → Nat → Bool) (c : Char) (rest : List Char) :
    pick p (c :: rest) = (if p c 0 then [c] else []) ++ pick (fun d i => p d (i + 1)) rest := by
  have hRest : ((rest.zipIdx 1).filter fun place => p place.1 place.2).map Prod.fst =
      pick (fun d i => p d (i + 1)) rest := by
    rw [List.zipIdx_succ, List.filter_map, List.map_map]
    rfl
  rw [pick, List.zipIdx_cons, List.filter_cons]
  split
  · rw [List.map_cons, hRest]
    rfl
  · rw [hRest]
    rfl

theorem inModulo_zero (text : List Char) :
    inModulo text 0 = Operator.modulo.symbol.isPrefixOf text := by
  simp [inModulo]

/-- Behind the first character, only an occurrence at the very start is new. -/
theorem inModulo_succ (c : Char) (rest : List Char) (i : Nat) :
    inModulo (c :: rest) (i + 1) =
      (decide (i < 2) && Operator.modulo.symbol.isPrefixOf (c :: rest) || inModulo rest i) := by
  have hShift : ∀ first, decide (i + 1 < first + 1 + 3) = decide (i < first + 3) := fun first => by
    simp only [decide_eq_decide]
    omega
  rw [inModulo, List.range_succ_eq_map, List.any_cons, List.any_map, inModulo]
  simp only [Function.comp_def, Nat.succ_eq_add_one, List.drop_succ_cons, hShift, List.drop_zero]
  congr 2
  simp only [decide_eq_decide]
  omega

namespace Glyph

theorem isRead_character (c : Char) : (character c).isRead = isSymbolChar c := by
  rw [isRead, role, isSymbolChar, isOperatorChar, isParenthesis]
  cases hLiteral : (isAsciiDigit c || isDecimalPoint c) with
  | true => simp
  | false =>
      cases Operator.ofChar? c with
      | some op => simp
      | none =>
          by_cases hOpen : c = '('
          · simp [hOpen]
          · by_cases hClose : c = ')'
            · simp [hClose]
            · cases hBlank : isBlank c <;> simp [hOpen, hClose]

theorem isSymbolChar_of_isBlank {c : Char} (h : isBlank c = true) : isSymbolChar c = false := by
  rw [← isRead_character, isRead, role_of_isBlank h]

theorem flatMap_text_map_character (literal : List Char) :
    (literal.map character).flatMap text = literal := by
  simp [List.flatMap_map, text]

/-- Glyphs are read back from the characters they stand for, if none of them is a
letter that the modulo operator begins with. -/
theorem ofText_flatMap_text {glyphs : List Glyph} (h : .character 'm' ∉ glyphs) :
    ofText (glyphs.flatMap text) = glyphs := by
  induction glyphs with
  | nil => rfl
  | cons glyph glyphs ih =>
      have hRest := ih fun hMem => h (List.mem_cons_of_mem _ hMem)
      cases glyph with
      | modulo =>
          rw [List.flatMap_cons]
          exact congrArg (List.cons Glyph.modulo) hRest
      | character c =>
          have hM : c ≠ 'm' := by
            rintro rfl
            exact h List.mem_cons_self
          rw [List.flatMap_cons]
          exact (ofText_cons hM _).trans (congrArg (List.cons (.character c)) hRest)

end Glyph

/-- Where no occurrence begins, it is only the rest that has some. -/
theorem inModulo_of_other {c : Char} {rest : List Char}
    (h : ∀ tail, c = 'm' → rest ≠ 'o' :: 'd' :: tail) :
    inModulo (c :: rest) 0 = false ∧ ∀ i, inModulo (c :: rest) (i + 1) = inModulo rest i := by
  have hPrefix : Operator.modulo.symbol.isPrefixOf (c :: rest) = false := by
    rw [Bool.eq_false_iff]
    intro hPrefix
    obtain ⟨tail, hTail⟩ := List.isPrefixOf_iff_prefix.mp hPrefix
    obtain ⟨hC, hRest⟩ := List.cons.inj hTail
    exact h tail hC.symm hRest.symm
  refine ⟨(inModulo_zero _).trans hPrefix, fun i => ?_⟩
  rw [inModulo_succ, hPrefix, Bool.and_false, Bool.false_or]

/-- Behind a whole modulo operator the occurrences are those of the rest. -/
theorem inModulo_behind (rest : List Char) (i : Nat) :
    inModulo ('m' :: 'o' :: 'd' :: rest) (i + 3) = inModulo rest i := by
  have hO := (@inModulo_of_other 'o' ('d' :: rest) (by simp)).2 (i + 1)
  have hD := (@inModulo_of_other 'd' rest (by simp)).2 i
  rw [inModulo_succ, hO, hD]
  simp

namespace Token

/-- What joining keeps of a text, told by its characters and their positions. -/
theorem join_ofText_eq_pick (expression : List Char) :
    join (ofText expression) =
      pick (fun c i => !isBlank c && !isSkipped expression c i) expression := by
  rw [join_ofText]
  -- A whole modulo operator takes three positions at once; behind any other character
  -- the positions of the rest are moved by one.
  fun_induction Glyph.ofText expression with
  | case1 rest ih =>
      have hLetters : ∀ i < 3, inModulo ('m' :: 'o' :: 'd' :: rest) i = true := by
        intro i hLess
        have hPositions : i = 0 ∨ i = 1 ∨ i = 2 := by omega
        rcases hPositions with rfl | rfl | rfl <;>
          simp [inModulo_succ, inModulo_zero, Operator.symbol]
      have hBlank : isBlank 'm' = false ∧ isBlank 'o' = false ∧ isBlank 'd' = false := by decide
      have hRead : Glyph.modulo.isRead = true := rfl
      rw [List.filter_cons_of_pos hRead, List.flatMap_cons, ih, pick_cons, pick_cons, pick_cons]
      simp [isSkipped, hLetters, hBlank, inModulo_behind, Glyph.text]
  | case2 c rest hOther ih =>
      obtain ⟨hFirst, hRest⟩ := inModulo_of_other fun tail hC hTail => hOther tail hC hTail
      rw [pick_cons, List.filter_cons, Glyph.isRead_character]
      have hKept : (!isBlank c && !isSkipped (c :: rest) c 0) = isSymbolChar c := by
        cases hBlank : isBlank c with
        | true => simp [Glyph.isSymbolChar_of_isBlank hBlank]
        | false => simp [isSkipped, hFirst, hBlank]
      have hShift : (fun d i => !isBlank d && !isSkipped (c :: rest) d (i + 1)) =
          fun d i => !isBlank d && !isSkipped rest d i := by
        funext d i
        rw [isSkipped, isSkipped, hRest]
      rw [hKept, hShift, ← ih]
      cases isSymbolChar c <;> rfl
  | case3 => rfl

/-- A text written with symbols and blanks only is joined without its blanks. -/
theorem join_ofText_of_symbols {glyphs : List Glyph}
    (h : ∀ c, .character c ∈ glyphs → isSymbolChar c = true ∨ isBlank c = true) :
    join (ofText (glyphs.flatMap Glyph.text)) =
      (glyphs.flatMap Glyph.text).filter (!isBlank ·) := by
  have hM : Glyph.character 'm' ∉ glyphs := fun hMem => absurd (h 'm' hMem) (by decide)
  rw [join_ofText, Glyph.ofText_flatMap_text hM]
  clear hM
  induction glyphs with
  | nil => rfl
  | cons glyph glyphs ih =>
      have hRest := ih fun c hMem => h c (List.mem_cons_of_mem _ hMem)
      rw [List.flatMap_cons, List.filter_append, ← hRest]
      cases glyph with
      | modulo => rfl
      | character c =>
          rw [List.filter_cons, Glyph.isRead_character]
          rcases h c List.mem_cons_self with hSymbol | hBlank
          · have hBlank : isBlank c = false := by
              rw [Bool.eq_false_iff]
              intro hBlank
              rw [Glyph.isSymbolChar_of_isBlank hBlank] at hSymbol
              cases hSymbol
            simp [hSymbol, hBlank, Glyph.text]
          · simp [Glyph.isSymbolChar_of_isBlank hBlank, hBlank, Glyph.text]

def isNumber : Token → Bool
  | .number _ => true
  | _ => false

/-- Tokens that can be told apart once they are joined: their literals are runs of
digits and points, and no two literals stand next to each other. -/
structure Separate (tokens : List Token) : Prop where
  literals : ∀ literal, .number literal ∈ tokens →
    literal ≠ [] ∧ ∀ c ∈ literal, IsLiteralChar c
  apart : tokens.IsChain fun last next => ¬ (last.isNumber = true ∧ next.isNumber = true)

theorem Separate.tail {token : Token} {tokens : List Token} (h : Separate (token :: tokens)) :
    Separate tokens :=
  ⟨fun literal hMem => h.literals literal (List.mem_cons_of_mem _ hMem), h.apart.tail⟩

/-- The glyphs that a token is written with. -/
def glyphs : Token → List Glyph
  | .operator .modulo => [.modulo]
  | token => token.text.map .character

theorem flatMap_text_glyphs (token : Token) : token.glyphs.flatMap Glyph.text = token.text := by
  cases token with
  | number literal => exact Glyph.flatMap_text_map_character literal
  | operator op => cases op <;> rfl
  | openParen | closeParen => rfl

theorem join_eq_flatMap_glyphs (tokens : List Token) :
    join tokens = (tokens.flatMap glyphs).flatMap Glyph.text := by
  rw [join, List.flatMap_assoc]
  simp only [flatMap_text_glyphs]

/-- A token other than a number is one glyph. -/
theorem exists_glyph_of_not_number {token : Token} (h : token.isNumber = false) :
    ∃ glyph : Glyph, token.glyphs = [glyph] ∧ glyph.role = .token token := by
  cases token with
  | number literal => cases h
  | operator op =>
      cases op with
      | modulo => exact ⟨.modulo, rfl, rfl⟩
      | add | subtract | multiply | divide | percent => exact ⟨.character _, rfl, by decide⟩
  | openParen | closeParen => exact ⟨.character _, rfl, by decide⟩

/-- No literal is written with a letter. -/
theorem Separate.letter_not_mem {tokens : List Token} (h : Separate tokens) :
    Glyph.character 'm' ∉ tokens.flatMap glyphs := by
  intro hMem
  obtain ⟨token, hToken, hGlyph⟩ := List.mem_flatMap.mp hMem
  cases hNumber : token.isNumber with
  | false =>
      obtain ⟨glyph, hGlyphs, hRole⟩ := exists_glyph_of_not_number hNumber
      rw [hGlyphs, List.mem_singleton] at hGlyph
      subst hGlyph
      exact absurd hRole (by simp [show (Glyph.character 'm').role = .ignored by decide])
  | true =>
      cases token with
      | number literal =>
          obtain ⟨c, hChar, hEq⟩ := List.mem_map.mp hGlyph
          obtain rfl := Glyph.character.inj hEq
          rcases (h.literals literal hToken).2 'm' hChar with hDigit | hPoint
          · exact absurd hDigit (by decide)
          · exact absurd hPoint (by decide)
      | operator op | openParen | closeParen => cases hNumber

theorem gather_literal {literal : List Char} (h : ∀ c ∈ literal, IsLiteralChar c)
    (run : List Char) (rest : List Glyph) :
    gather run (literal.map .character ++ rest) = gather (run ++ literal) rest := by
  induction literal generalizing run with
  | nil => rw [List.append_nil]; rfl
  | cons c literal ih =>
      have hRole : (Glyph.character c).role = .literal c := by
        rcases h c List.mem_cons_self with hDigit | rfl
        · exact Glyph.role_digit hDigit
        · rfl
      rw [List.map_cons, List.cons_append, gather, hRole]
      change gather (run ++ [c]) _ = _
      rw [ih (fun d hMem => h d (List.mem_cons_of_mem _ hMem)), List.append_assoc]
      rfl

/-- The tokens are gathered one by one, behind a literal that the first of them
ends. -/
theorem Separate.gather_glyphs {tokens : List Token} (h : Separate tokens) {run : List Char}
    (hRun : run = [] ∨ ∀ first ∈ tokens.head?, first.isNumber = false) :
    gather run (tokens.flatMap glyphs) = ofRun run ++ tokens := by
  induction tokens generalizing run with
  | nil => exact (List.append_nil _).symm
  | cons token tokens ih =>
      rw [List.flatMap_cons]
      cases hNumber : token.isNumber with
      | false =>
          obtain ⟨glyph, hGlyphs, hRole⟩ := exists_glyph_of_not_number hNumber
          rw [hGlyphs, List.singleton_append, gather, hRole]
          change ofRun run ++ token :: gather [] _ = _
          rw [ih h.tail (.inl rfl)]
          rfl
      | true =>
          cases token with
          | number literal =>
              obtain ⟨hSome, hLiteral⟩ := h.literals literal List.mem_cons_self
              have hEmpty : run = [] := by
                rcases hRun with hEmpty | hFirst
                · exact hEmpty
                · exact absurd (hFirst _ rfl) (by simp [isNumber])
              have hNext : ∀ first ∈ tokens.head?, first.isNumber = false := by
                intro first hFirst
                rw [Bool.eq_false_iff]
                exact fun hBoth => (List.isChain_cons.mp h.apart).1 first hFirst ⟨rfl, hBoth⟩
              change gather run (literal.map .character ++ _) = _
              rw [gather_literal hLiteral, ih h.tail (.inr hNext), hEmpty]
              simp [ofRun, hSome]
          | operator op | openParen | closeParen => cases hNumber

/-- Tokens that can be told apart are read back from the text that joins them. -/
theorem ofText_join {tokens : List Token} (h : Separate tokens) :
    ofText (join tokens) = tokens := by
  rw [ofText, join_eq_flatMap_glyphs, Glyph.ofText_flatMap_text h.letter_not_mem,
    h.gather_glyphs (.inl rfl)]
  rfl

theorem isLiteralChar_of_role {glyph : Glyph} {c : Char} (h : glyph.role = .literal c) :
    IsLiteralChar c := by
  obtain rfl := Glyph.eq_character_of_role h
  rw [Glyph.role] at h
  split at h
  · rename_i hChar
    simpa [IsLiteralChar, isDecimalPoint] using hChar
  · repeat' split at h
    all_goals cases h

theorem literal_of_mem_gather {glyphs : List Glyph} {run literal : List Char}
    (hRun : ∀ c ∈ run, IsLiteralChar c) (h : .number literal ∈ gather run glyphs) :
    literal ≠ [] ∧ ∀ c ∈ literal, IsLiteralChar c := by
  have hEnded {run : List Char} (hRun : ∀ c ∈ run, IsLiteralChar c)
      (hMem : .number literal ∈ ofRun run) : literal ≠ [] ∧ ∀ c ∈ literal, IsLiteralChar c := by
    obtain ⟨rfl, hSome⟩ := eq_of_mem_ofRun hMem
    exact ⟨hSome, hRun⟩
  induction glyphs generalizing run with
  | nil => exact hEnded hRun h
  | cons glyph glyphs ih =>
      rcases mem_gather_cons_cases h with hMem | hMem | ⟨c, hRole, hMem⟩ | ⟨-, hMem⟩
      · exact hEnded hRun hMem
      · exact ih (fun c hNone => by cases hNone) hMem
      · exact ih (List.forall_mem_append.mpr
          ⟨hRun, List.forall_mem_singleton.mpr (isLiteralChar_of_role hRole)⟩) hMem
      · exact ih hRun hMem

/-- Spaces keep the tokens of a text apart, literals included. -/
theorem ofText_spaced (expression : List Char) :
    ofText ([' '].intercalate ((ofText expression).map text)) = ofText expression := by
  have hSingle : ∀ token ∈ ofText expression, ofText token.text = [token] := by
    intro token hMem
    have hSeparate : Separate [token] := by
      refine ⟨fun literal hLiteral => ?_, List.isChain_singleton _⟩
      rw [← List.mem_singleton.mp hLiteral] at hMem
      exact literal_of_mem_gather (fun c hNone => by cases hNone) hMem
    simpa [join] using ofText_join hSeparate
  rw [cutsAtBlanks_ofText.intercalate, List.flatMap_map, List.flatMap_congr hSingle,
    List.flatMap_singleton']

/-- Reading and joining are inverse to each other. Joined, the tokens of a text are
the text without its blanks and without what is skipped, and of a text made of
symbols nothing is skipped. Tokens that can be told apart are read back from the text
that joins them, and the tokens of any text once there are spaces between them. -/
theorem reading_inverse_joining :
    (∀ expression, join (ofText expression) =
        pick (fun c i => !isBlank c && !isSkipped expression c i) expression) ∧
      (∀ glyphs : List Glyph,
        (∀ c, .character c ∈ glyphs → isSymbolChar c = true ∨ isBlank c = true) →
          join (ofText (glyphs.flatMap Glyph.text)) =
            (glyphs.flatMap Glyph.text).filter (!isBlank ·)) ∧
      (∀ tokens, Separate tokens → ofText (join tokens) = tokens) ∧
      ∀ expression,
        ofText ([' '].intercalate ((ofText expression).map text)) = ofText expression :=
  ⟨join_ofText_eq_pick, fun _ => join_ofText_of_symbols, fun _ => ofText_join, ofText_spaced⟩

/-- A tabulator stands in front of `mod`, and points without a digit behind it. -/
theorem reading_inverse_joining_points :
    let glyphs := [.character '7', .character '.', .character '\t', .modulo, .character '(',
      .character '-', .character '.', .character '.']
    let tokens := [.number ['7', '.'], .operator .modulo, .openParen, .operator .subtract,
      .number ['.', '.']]
    (∀ c, .character c ∈ glyphs → isSymbolChar c = true ∨ isBlank c = true) ∧
      join (ofText (glyphs.flatMap Glyph.text)) =
        (glyphs.flatMap Glyph.text).filter (!isBlank ·) ∧
      Separate tokens ∧ ofText (join tokens) = tokens := by
  intro glyphs tokens
  have hGlyphs : ∀ c, .character c ∈ glyphs → isSymbolChar c = true ∨ isBlank c = true := by
    intro c hMem
    have hChars : c = '7' ∨ c = '.' ∨ c = '\t' ∨ c = '(' ∨ c = '-' ∨ c = '.' := by
      simpa [glyphs] using hMem
    rcases hChars with rfl | rfl | rfl | rfl | rfl | rfl <;> decide
  have hTokens : Separate tokens := by
    refine ⟨fun literal hMem => ?_, by decide⟩
    have hLiterals : literal = ['7', '.'] ∨ literal = ['.', '.'] := by simpa [tokens] using hMem
    rcases hLiterals with rfl | rfl <;> simp [IsLiteralChar, isAsciiDigit]
  exact ⟨hGlyphs, reading_inverse_joining.2.1 glyphs hGlyphs, hTokens,
    reading_inverse_joining.2.2.1 tokens hTokens⟩

end Token

end KeypadCalculator
