import KeypadCalculator.Proofs.Token.NumeralText

/-!
Literals that have a value. A literal has one if a numeral stands at its front, because no
digit of a literal is of another script, and nothing counts from its second point on.
-/

namespace KeypadCalculator

open Text Numeral

theorem IsLiteralChar.isBlank_eq_false {c : Char} (h : IsLiteralChar c) : isBlank c = false := by
  rcases h with hDigit | rfl
  · exact isBlank_eq_false_of_isAsciiDigit hDigit
  · decide

theorem skipBlanks_of_literal {literal : List Char} (h : ∀ c ∈ literal, IsLiteralChar c) :
    skipBlanks literal = literal := by
  cases literal with
  | nil => rfl
  | cons c rest =>
      exact List.dropWhile_cons_of_neg (by simp [(h c List.mem_cons_self).isBlank_eq_false])

/-- A literal that begins with a numeral has a value. -/
theorem value?_isSome_of_prefix {front literal : List Char} (hFront : IsText front)
    (hPrefix : front <+: literal) (h : ∀ c ∈ literal, IsLiteralChar c) :
    (Token.number literal).value?.isSome := by
  have hSkip := skipBlanks_of_literal h
  cases hRead : Numeral.leading? literal with
  | none => exact absurd (hSkip.symm ▸ hPrefix) (leading?_eq_none_iff.mp hRead front hFront)
  | some n =>
      obtain ⟨longest, hWrites, hLongest⟩ := exists_longestPrefix hRead
      have hAscii : n.isAscii = true := hWrites.isAscii_iff.mpr fun c hMem =>
        (h c (hSkip ▸ hLongest.begins.subset hMem)).isAsciiDigit
      rw [Token.value?, Binary64.leading?, hRead]
      simp only [hAscii, if_true, Option.isSome_some]

/-- A literal that begins with a digit has a value, whatever digits and points
follow. -/
theorem value?_isSome_of_digit {d : Char} {rest : List Char} (hDigit : isAsciiDigit d = true)
    (h : ∀ c ∈ d :: rest, IsLiteralChar c) : (Token.number (d :: rest)).value?.isSome := by
  have hDecimal : AllDecimal [d] := by
    simpa [AllDecimal] using isDecimalDigit_of_isAsciiDigit hDigit
  have hMantissa : MantissaText [d] [] [d] := .plain hDecimal (List.cons_ne_nil d [])
  exact value?_isSome_of_prefix ⟨_, hMantissa.writes⟩ ⟨rest, rfl⟩ h

theorem value?_isSome_of_point {d : Char} {rest : List Char} (hDigit : isAsciiDigit d = true)
    (h : ∀ c ∈ '.' :: d :: rest, IsLiteralChar c) :
    (Token.number ('.' :: d :: rest)).value?.isSome := by
  have hDecimal : AllDecimal [d] := by
    simpa [AllDecimal] using isDecimalDigit_of_isAsciiDigit hDigit
  have hNone : AllDecimal [] := List.forall_mem_nil _
  have hMantissa : MantissaText [] [d] ['.', d] :=
    .pointed hNone hDecimal (.inr (List.cons_ne_nil d []))
  exact value?_isSome_of_prefix ⟨_, hMantissa.writes⟩ ⟨rest, rfl⟩ h

theorem allDecimal_of_literal {digits : List Char} (h : ∀ c ∈ digits, IsLiteralChar c)
    (hPoint : '.' ∉ digits) : AllDecimal digits := fun c hMem =>
  isDecimalDigit_of_isAsciiDigit ((h c hMem).resolve_right fun hEq => hPoint (hEq ▸ hMem))

/-- From its second point on, a literal has no influence on its value. -/
theorem value?_second_point {front : List Char} (h : ∀ c ∈ front, IsLiteralChar c)
    (hOne : front.count '.' = 1) (back : List Char) :
    (Token.number (front ++ '.' :: back)).value? = (Token.number front).value? := by
  have hPoint : '.' ∈ front := List.count_pos_iff.mp (by omega)
  obtain ⟨whole, fraction, rfl⟩ := List.append_of_mem hPoint
  rw [List.count_append, List.count_cons_self] at hOne
  obtain ⟨hWhole, hFraction⟩ := List.forall_mem_append.mp h
  have hWhole := allDecimal_of_literal hWhole (List.count_eq_zero.mp (by omega))
  have hFraction := allDecimal_of_literal (List.forall_mem_cons.mp hFraction).2
    (List.count_eq_zero.mp (by omega))
  rw [Token.value?, Token.value?, Binary64.leading?, Binary64.leading?]
  by_cases hSome : whole ≠ [] ∨ fraction ≠ []
  · have hStop : isDecimalDigit '.' ≠ true := by decide
    have hAlone := leading?_pointed hWhole hFraction hSome []
    rw [List.append_nil] at hAlone
    rw [leading?_pointed hWhole hFraction hSome, hAlone, List.takeWhile_cons_of_neg hStop,
      List.dropWhile_cons_of_neg hStop, powerOfTen_other (by decide)]
    rfl
  · rw [not_or, Classical.not_not, Classical.not_not] at hSome
    obtain ⟨rfl, rfl⟩ := hSome
    rfl

/-- Only a point that no digit stands next to keeps a literal from having a value. -/
theorem value?_eq_none_iff {literal : List Char} (hSome : literal ≠ [])
    (h : ∀ c ∈ literal, IsLiteralChar c) :
    (Token.number literal).value? = none ↔ literal = ['.'] ∨ ['.', '.'] <+: literal := by
  constructor
  · intro hNone
    obtain ⟨c, rest, rfl⟩ := List.exists_cons_of_ne_nil hSome
    rcases h c List.mem_cons_self with hDigit | rfl
    · exact absurd hNone (Option.isSome_iff_ne_none.mp (value?_isSome_of_digit hDigit h))
    cases rest with
    | nil => exact .inl rfl
    | cons d more =>
        obtain ⟨-, hMore⟩ := List.forall_mem_cons.mp h
        rcases hMore d List.mem_cons_self with hDigit | rfl
        · exact absurd hNone (Option.isSome_iff_ne_none.mp (value?_isSome_of_point hDigit h))
        · exact .inr ⟨more, rfl⟩
  · rintro (rfl | ⟨more, rfl⟩)
    · rfl
    · rfl

end KeypadCalculator
