import KeypadCalculator.Proofs.Text.Cutting
import KeypadCalculator.Proofs.Token.Characters

/-!
Where a text can be cut without a change to its tokens: around a blank, and
around a character that is a token by itself.
-/

namespace KeypadCalculator

open Text

namespace Glyph

theorem ofText_cons {c : Char} (hM : c ≠ 'm') (rest : List Char) :
    ofText (c :: rest) = .character c :: ofText rest := by
  rw [ofText]
  intro tail hC
  exact absurd hC hM

/-- Where the modulo operator reaches over a cut behind its first letter, the cut
is in front of one of its other letters. -/
theorem cut_modulo {front behind tail : List Char} (hFront : ∀ rest, front ≠ 'o' :: 'd' :: rest)
    (h : front ++ behind = 'o' :: 'd' :: tail) :
    (front = [] ∧ behind = 'o' :: 'd' :: tail) ∨ (front = ['o'] ∧ behind = 'd' :: tail) := by
  cases front with
  | nil => exact .inl ⟨rfl, h⟩
  | cons c front =>
      obtain ⟨rfl, hRest⟩ := List.cons.inj h
      cases front with
      | nil => exact .inr ⟨rfl, hRest⟩
      | cons d front =>
          obtain ⟨rfl, -⟩ := List.cons.inj hRest
          exact absurd rfl (hFront front)

/-- No occurrence of the modulo operator reaches over a character that is not
one of its letters. -/
theorem ofText_append_cons {c : Char} (hM : c ≠ 'm') (hO : c ≠ 'o') (hD : c ≠ 'd')
    (front rest : List Char) :
    ofText (front ++ c :: rest) = ofText front ++ .character c :: ofText rest := by
  fun_induction ofText front with
  | case1 front ih => simp [ofText, ih]
  | case2 d front hOther ih =>
      rw [List.cons_append, ofText, ih]
      · rfl
      · intro tail hFirst hEq
        rcases cut_modulo (fun _ hFront => hOther _ hFirst hFront) hEq with ⟨-, hC⟩ | ⟨-, hC⟩
        · exact hO (List.cons.inj hC).1
        · exact hD (List.cons.inj hC).1
  | case3 => exact ofText_cons hM rest

theorem ofText_append_blank {c : Char} (h : isBlank c = true) (front rest : List Char) :
    ofText (front ++ c :: rest) = ofText front ++ .character c :: ofText rest := by
  have hLetter : ∀ d, isBlank d = false → c ≠ d := by
    rintro d hD rfl
    exact absurd (h.symm.trans hD) (by decide)
  exact ofText_append_cons (hLetter 'm' (by decide)) (hLetter 'o' (by decide))
    (hLetter 'd' (by decide)) front rest

/-- One more character is a glyph of its own, unless it completes the modulo
operator. -/
theorem ofText_append_singleton {front : List Char} {c : Char}
    (h : ∀ before, front = before ++ ['m', 'o'] → c ≠ 'd') :
    ofText (front ++ [c]) = ofText front ++ [.character c] := by
  fun_induction ofText front with
  | case1 rest ih =>
      have hRest : ∀ before, rest = before ++ ['m', 'o'] → c ≠ 'd' := by
        rintro before rfl
        exact h ('m' :: 'o' :: 'd' :: before) rfl
      simp [ofText, ih hRest]
  | case2 d rest hOther ih =>
      have hRest : ∀ before, rest = before ++ ['m', 'o'] → c ≠ 'd' := by
        rintro before rfl
        exact h (d :: before) rfl
      rw [List.cons_append, ofText, ih hRest]
      · rfl
      · rintro tail rfl hEq
        rcases cut_modulo (fun _ hFront => hOther _ rfl hFront) hEq with ⟨-, hC⟩ | ⟨rfl, hC⟩
        · simp at hC
        · exact h [] rfl (List.cons.inj hC).1
  | case3 => simp [ofText]

theorem ofText_append_of_ne {c : Char} (h : c ≠ 'd') (front : List Char) :
    ofText (front ++ [c]) = ofText front ++ [.character c] :=
  ofText_append_singleton fun _ _ => h

theorem ofText_append_modulo (front : List Char) :
    ofText (front ++ ['m', 'o', 'd']) = ofText front ++ [.modulo] := by
  fun_induction ofText front with
  | case1 rest ih => simp [ofText, ih]
  | case2 c rest hOther ih =>
      rw [List.cons_append, ofText, ih]
      · rfl
      · intro tail hFirst hEq
        rcases cut_modulo (fun _ hFront => hOther _ hFirst hFront) hEq with ⟨-, hC⟩ | ⟨-, hC⟩
        all_goals simp at hC
  | case3 => rfl

end Glyph

namespace Token

/-- What ends a literal can begin a new row of tokens as well. -/
theorem gather_append {glyph : Glyph}
    (h : glyph.role = .gap ∨ ∃ token, glyph.role = .token token)
    (run : List Char) (front rest : List Glyph) :
    gather run (front ++ glyph :: rest) = gather run front ++ gather [] (glyph :: rest) := by
  induction front generalizing run with
  | nil => rcases h with h | ⟨token, h⟩ <;> simp [gather, h, ofRun]
  | cons first front ih =>
      rw [List.cons_append, gather, gather]
      cases first.role with
      | literal c => exact ih (run ++ [c])
      | token t => simp [ih]
      | gap => simp [ih]
      | ignored => exact ih run

/-- A blank separates the tokens around it and leaves no trace among them. -/
theorem ofText_append_blank {c : Char} (h : isBlank c = true) (front rest : List Char) :
    ofText (front ++ c :: rest) = ofText front ++ ofText rest := by
  have hRole := Glyph.role_of_isBlank h
  rw [ofText, Glyph.ofText_append_blank h, gather_append (.inl hRole), gather, hRole]
  rfl

/-- A character that is a token by itself ends what is in front of it. -/
theorem ofText_append_token {c : Char} {token : Token}
    (h : Glyph.role (.character c) = .token token)
    (hM : c ≠ 'm') (hO : c ≠ 'o') (hD : c ≠ 'd') (front rest : List Char) :
    ofText (front ++ c :: rest) = ofText front ++ token :: ofText rest := by
  rw [ofText, Glyph.ofText_append_cons hM hO hD, gather_append (.inr ⟨token, h⟩), gather, h]
  rfl

theorem ofText_append_openParen (front rest : List Char) :
    ofText (front ++ '(' :: rest) = ofText front ++ .openParen :: ofText rest :=
  ofText_append_token (by decide) (by decide) (by decide) (by decide) front rest

theorem ofText_append_closeParen (front rest : List Char) :
    ofText (front ++ ')' :: rest) = ofText front ++ .closeParen :: ofText rest :=
  ofText_append_token (by decide) (by decide) (by decide) (by decide) front rest

theorem cutsAtBlanks_ofText : CutsAtBlanks ofText :=
  ⟨rfl, ofText_append_blank⟩

/-- A row of blanks is a cut between tokens. -/
theorem ofText_append_blanks {gap : List Char} (hSome : gap ≠ [])
    (h : ∀ c ∈ gap, isBlank c = true) (front rest : List Char) :
    ofText (front ++ (gap ++ rest)) = ofText front ++ ofText rest :=
  cutsAtBlanks_ofText.append_blanks hSome h front rest

/-- Collapsing the blanks of a text keeps its tokens. -/
theorem ofText_collapse (text : List Char) : ofText (collapse text) = ofText text :=
  cutsAtBlanks_ofText.collapse text

end Token

end KeypadCalculator
