import KeypadCalculator.Proofs.Keypad.Editing
import KeypadCalculator.Proofs.Token.Joining

/-!
What of an expression the calculator does not read. A key types what is a token or
continues one, but a backspace takes off a single character, and the modulo operator
has three. The letters that are left of it are on display and in no token; nothing
else is.
-/

namespace KeypadCalculator

open Text

/-- A letter that a backspace has left of the modulo operator. The last letter of it
is the first to go. -/
def Glyph.isLeftover : Glyph → Bool
  | .modulo => false
  | .character c => c == 'm' || c == 'o'

namespace Glyph

theorem isRead_of_isPlain {c : Char} (h : IsPlain c) : (character c).isRead = true := by
  cases hDigit : isAsciiDigit c with
  | true => simp [isRead, role_digit hDigit]
  | false => rcases h.eq_parenthesis hDigit with rfl | rfl <;> rfl

/-- Every operator is one glyph. -/
theorem exists_ofText_append_symbol (text : List Char) (op : Operator) :
    ∃ glyph : Glyph, ofText (text ++ op.symbol) = ofText text ++ [glyph] ∧
      glyph.isRead = true := by
  cases op with
  | modulo => exact ⟨.modulo, ofText_append_modulo text, rfl⟩
  | add | subtract | multiply | divide | percent =>
      exact ⟨.character _, ofText_append_of_ne (by decide) text, by decide⟩

theorem isLeftover_of_isRead {glyph : Glyph} (h : glyph.isRead = true) :
    glyph.isLeftover = false := by
  cases glyph with
  | modulo => rfl
  | character c =>
      rw [Bool.eq_false_iff]
      intro hLeftover
      have hEither : c = 'm' ∨ c = 'o' := by simpa [isLeftover] using hLeftover
      rcases hEither with rfl | rfl <;> exact absurd h (by decide)

end Glyph

/-- Without its last character, a text has no new glyphs but the letters of the
modulo operator, if that stood at its end. -/
theorem Glyph.forall_of_append {p : Glyph → Prop} {front : List Char} {last : Char}
    (hCut : endsWithModulo (front ++ [last]) = true → p (.character 'm') ∧ p (.character 'o'))
    (hAll : ∀ glyph ∈ ofText (front ++ [last]), p glyph) : ∀ glyph ∈ ofText front, p glyph := by
  by_cases hModulo : ∃ before, front = before ++ ['m', 'o'] ∧ last = 'd'
  · obtain ⟨before, rfl, rfl⟩ := hModulo
    have hWhole : before ++ ['m', 'o'] ++ ['d'] = before ++ ['m', 'o', 'd'] :=
      List.append_assoc _ _ _
    have hCharacters : before ++ ['m', 'o'] = before ++ ['m'] ++ ['o'] := by simp
    have hEnds : endsWithModulo (before ++ ['m', 'o', 'd']) = true :=
      List.isSuffixOf_iff_suffix.mpr (List.suffix_append before _)
    rw [hWhole] at hCut hAll
    rw [ofText_append_modulo] at hAll
    rw [hCharacters, ofText_append_of_ne (by decide), ofText_append_of_ne (by decide)]
    obtain ⟨hM, hO⟩ := hCut hEnds
    have hBefore := (List.forall_mem_append.mp hAll).1
    simpa [or_imp, forall_and, hM, hO] using hBefore
  · have hLast : ∀ before, front = before ++ ['m', 'o'] → last ≠ 'd' :=
      fun before hFront hD => hModulo ⟨before, hFront, hD⟩
    rw [ofText_append_singleton hLast] at hAll
    exact (List.forall_mem_append.mp hAll).1

/-- A key types glyphs that are read. Only a backspace behind the modulo operator
makes other glyphs, which are two of its letters. -/
theorem Edits.forall_glyph {p : Glyph → Prop} (hRead : ∀ glyph, glyph.isRead = true → p glyph)
    {key : Key} {text edited : List Char} (h : Edits key text edited)
    (hCut : key = .backspace → endsWithModulo text = true →
      p (.character 'm') ∧ p (.character 'o'))
    (hAll : ∀ glyph ∈ Glyph.ofText text, p glyph) : ∀ glyph ∈ Glyph.ofText edited, p glyph := by
  cases h with
  | keep => exact hAll
  | clear => exact fun _ hMem => absurd hMem List.not_mem_nil
  | append _ _ hPlain =>
      rw [Glyph.ofText_append_of_ne (hPlain.ne (by decide) (by decide))]
      exact List.forall_mem_append.mpr
        ⟨hAll, by simpa using hRead _ (Glyph.isRead_of_isPlain hPlain)⟩
  | point _ =>
      rw [Glyph.ofText_append_of_ne (by decide)]
      exact List.forall_mem_append.mpr ⟨hAll, by simpa using hRead _ (by decide)⟩
  | operator op _ =>
      obtain ⟨glyph, hText, hGlyph⟩ := Glyph.exists_ofText_append_symbol text op
      rw [hText]
      exact List.forall_mem_append.mpr ⟨hAll, by simpa using hRead _ hGlyph⟩
  | @replace op front last hLast =>
      obtain ⟨glyph, hText, hGlyph⟩ := Glyph.exists_ofText_append_symbol front op
      have hLetter : last ≠ 'd' := by
        rintro rfl
        cases hLast
      rw [Glyph.ofText_append_of_ne hLetter] at hAll
      rw [hText]
      exact List.forall_mem_append.mpr
        ⟨(List.forall_mem_append.mp hAll).1, by simpa using hRead _ hGlyph⟩
  | erase =>
      rcases List.eq_nil_or_concat text with rfl | ⟨front, last, rfl⟩
      · exact hAll
      · rw [List.concat_eq_append] at hCut hAll ⊢
        rw [List.dropLast_concat]
        exact Glyph.forall_of_append (hCut rfl) hAll

namespace Session

/-- A backspace is pressed behind a whole modulo operator. -/
def cutsModulo (s : Session) : List (Key × InputMode) → Bool
  | [] => false
  | move :: moves => (move.1 == .backspace && endsWithModulo s.expression) ||
    (s.press move.1 move.2).cutsModulo moves

theorem forall_glyph_pressEach {p : Glyph → Prop} (hRead : ∀ glyph, glyph.isRead = true → p glyph)
    {s : Session} {moves : List (Key × InputMode)} (hKeys : ∀ move ∈ moves, move.1.IsAscii)
    (hCut : s.cutsModulo moves = true → p (.character 'm') ∧ p (.character 'o'))
    (h : ∀ glyph ∈ Glyph.ofText s.expression, p glyph) :
    ∀ glyph ∈ Glyph.ofText (s.pressEach moves).expression, p glyph := by
  induction moves generalizing s with
  | nil => exact h
  | cons move moves ih =>
      have hEdits := s.edits_press (hKeys move List.mem_cons_self) move.2
      refine ih (fun other hMem => hKeys other (List.mem_cons_of_mem _ hMem)) ?_ ?_
      · exact fun hRest => hCut (by simp [cutsModulo, hRest])
      · refine hEdits.forall_glyph hRead ?_ h
        exact fun hKey hEnds => hCut (by simp [cutsModulo, hKey, hEnds])

/-- Every glyph that keys have typed is read, or a letter left of a modulo operator. -/
theorem isRead_or_isLeftover {moves : List (Key × InputMode)}
    (hKeys : ∀ move ∈ moves, move.1.IsAscii) :
    ∀ glyph ∈ Glyph.ofText (new.pressEach moves).expression,
      glyph.isRead = true ∨ glyph.isLeftover = true :=
  forall_glyph_pressEach (fun _ => .inl) hKeys (fun _ => ⟨.inr rfl, .inr rfl⟩)
    fun _ hMem => absurd hMem List.not_mem_nil

/-- What is on display is what the calculator reads, and letters left of modulo
operators: joined, the tokens are the expression without these letters. They are the
expression itself exactly if there are no such letters, and there are none unless a
backspace was pressed behind a whole modulo operator. -/
theorem join_ofText_pressEach {moves : List (Key × InputMode)} {ascii : Bool}
    {typed : List Char} (hKeys : moves.map Prod.fst = Key.ofTyping ascii typed) :
    let text := (new.pressEach moves).expression
    Token.join (Token.ofText text) =
        ((Glyph.ofText text).filter (!·.isLeftover)).flatMap Glyph.text ∧
      (Token.join (Token.ofText text) = text ↔
        ∀ glyph ∈ Glyph.ofText text, glyph.isLeftover = false) ∧
      (new.cutsModulo moves = false → Token.join (Token.ofText text) = text) := by
  intro text
  have hAscii := Key.isAscii_of_map_fst hKeys
  have hGlyphs : ∀ glyph ∈ Glyph.ofText text, glyph.isRead = !glyph.isLeftover := by
    intro glyph hMem
    rcases isRead_or_isLeftover hAscii glyph hMem with hRead | hLeftover
    · rw [hRead, Glyph.isLeftover_of_isRead hRead, Bool.not_false]
    · rw [hLeftover, Bool.not_true, Bool.eq_false_iff]
      intro hRead
      rw [Glyph.isLeftover_of_isRead hRead] at hLeftover
      cases hLeftover
  refine ⟨?_, ?_, ?_⟩
  · rw [Token.join_ofText, List.filter_congr hGlyphs]
  · rw [Token.join_ofText_eq_iff]
    refine forall₂_congr fun glyph hMem => ?_
    rw [hGlyphs glyph hMem, Bool.not_eq_true']
  · intro hCut
    refine (Token.join_ofText_eq_iff text).mpr ?_
    exact forall_glyph_pressEach (fun _ => id) hAscii (by simp [hCut])
      fun _ hMem => absurd hMem List.not_mem_nil

/-- A modulo operator is cut and typed again, and the letters between stay, while the
mode is switched to and fro. -/
theorem join_ofText_pressEach_retyped :
    let moves : List (Key × InputMode) := [(.digit '7', .strict), (.operator .modulo, .strict),
      (.backspace, .advisory), (.operator .modulo, .advisory), (.digit '2', .strict)]
    let text := (new.pressEach moves).expression
    moves.map Prod.fst = Key.ofTyping true "7mod<mod2".toList ∧
      text = "7momod2".toList ∧
      (Token.join (Token.ofText text) =
          ((Glyph.ofText text).filter (!·.isLeftover)).flatMap Glyph.text ∧
        (Token.join (Token.ofText text) = text ↔
          ∀ glyph ∈ Glyph.ofText text, glyph.isLeftover = false) ∧
        (new.cutsModulo moves = false → Token.join (Token.ofText text) = text)) := by
  intro moves text
  have hKeys : moves.map Prod.fst = Key.ofTyping true "7mod<mod2".toList := by decide
  exact ⟨hKeys, by decide, join_ofText_pressEach hKeys⟩

/-- A backspace takes the last letter off the modulo operator, and two are left on
display that no token holds. -/
theorem join_ofText_backspace_modulo :
    let moves : List (Key × InputMode) :=
      [(.digit '5', .strict), (.operator .modulo, .strict), (.backspace, .strict)]
    let text := (new.pressEach moves).expression
    moves.map Prod.fst = Key.ofTyping true "5mod<".toList ∧ text = "5mo".toList ∧
      Token.ofText text = [.number ['5']] ∧ Token.join (Token.ofText text) ≠ text := by
  decide

end Session

end KeypadCalculator
