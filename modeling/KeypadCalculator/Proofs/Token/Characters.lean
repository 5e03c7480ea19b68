import KeypadCalculator.Token

/-!
The classes of characters, and the roles that they have in an expression.
-/

namespace KeypadCalculator

open Text

/-- A character that a literal may hold. -/
def IsLiteralChar (c : Char) : Prop :=
  isAsciiDigit c = true ∨ c = '.'

theorem isDecimalDigit_of_isAsciiDigit {c : Char} (h : isAsciiDigit c = true) :
    isDecimalDigit c = true := by
  simp only [isAsciiDigit, Char.le_def, UInt32.le_iff_toNat_le, Bool.and_eq_true,
    decide_eq_true_eq] at h
  have hFirst : 0x30 ≤ c.toNat ∧ c.toNat < 0x30 + 10 := by
    simp only [Char.toNat]
    grind
  simp [isDecimalDigit, decimalZeros, hFirst]

theorem IsLiteralChar.isAsciiDigit {c : Char} (h : IsLiteralChar c)
    (hDecimal : isDecimalDigit c = true) : isAsciiDigit c = true := by
  rcases h with hDigit | rfl
  · exact hDigit
  · exact absurd hDecimal (by decide)

theorem isBlank_eq_false_of_isAsciiDigit {c : Char} (h : isAsciiDigit c = true) :
    isBlank c = false := by
  simp only [isAsciiDigit, Char.le_def, UInt32.le_iff_toNat_le, Bool.and_eq_true,
    decide_eq_true_eq] at h
  simp only [isBlank, Char.toNat]
  grind

theorem ne_of_isAsciiDigit {c d : Char} (h : isAsciiDigit c = true)
    (hOther : isAsciiDigit d = false) : c ≠ d := by
  rintro rfl
  exact absurd (h.symm.trans hOther) (by decide)

theorem count_point_of_digits {digits : List Char} (h : ∀ c ∈ digits, isAsciiDigit c = true) :
    digits.count '.' = 0 :=
  List.count_eq_zero.mpr fun hMem => absurd (h '.' hMem) (by decide)

theorem Operator.symbol_of_ofChar? {c : Char} {op : Operator} (h : ofChar? c = some op) :
    op.symbol = [c] := by
  rw [ofChar?] at h
  repeat' split at h
  all_goals cases h
  all_goals
    subst_vars
    rfl

theorem exists_symbol_of_isOperatorChar {c : Char} (h : isOperatorChar c = true) :
    ∃ op : Operator, op.symbol = [c] := by
  obtain ⟨op, hOp⟩ := Option.isSome_iff_exists.mp h
  exact ⟨op, Operator.symbol_of_ofChar? hOp⟩

theorem not_number_of_isOperatorChar {c : Char} (h : isOperatorChar c = true) :
    isDecimalDigit c = false ∧ c ≠ '.' := by
  obtain ⟨op, hSymbol⟩ := exists_symbol_of_isOperatorChar h
  cases op <;> cases hSymbol <;> decide

theorem isOperatorChar_of_isAsciiDigit {c : Char} (h : isAsciiDigit c = true) :
    isOperatorChar c = false := by
  rw [Bool.eq_false_iff]
  intro hOperator
  have hDigit := (not_number_of_isOperatorChar hOperator).1
  rw [isDecimalDigit_of_isAsciiDigit h] at hDigit
  cases hDigit

theorem isAsciiDigit_of_isOperatorChar {c : Char} (h : isOperatorChar c = true) :
    isAsciiDigit c = false := by
  rw [Bool.eq_false_iff]
  intro hDigit
  rw [isOperatorChar_of_isAsciiDigit hDigit] at h
  cases h

namespace Glyph

/-- A blank is neither a digit, nor a point, nor any other character with a
meaning. -/
theorem role_of_isBlank {c : Char} (h : isBlank c = true) : role (.character c) = .gap := by
  have hDigit : isAsciiDigit c = false := by
    simp only [isBlank, Char.toNat] at h
    simp only [isAsciiDigit, Char.le_def, UInt32.le_iff_toNat_le]
    grind
  have hOther : ∀ d, isBlank d = false → c ≠ d := by
    rintro d hD rfl
    exact absurd (h.symm.trans hD) (by decide)
  have hPoint : isDecimalPoint c = false := by
    simpa [isDecimalPoint] using hOther '.' (by decide)
  have hOperator : Operator.ofChar? c = none := by
    rw [Option.eq_none_iff_forall_ne_some]
    intro op hOp
    have hSymbol := Operator.symbol_of_ofChar? hOp
    cases op <;> cases hSymbol <;> exact absurd h (by decide)
  simp [role, hDigit, hPoint, hOperator, hOther '(' (by decide), hOther ')' (by decide), h]

theorem role_digit {c : Char} (h : isAsciiDigit c = true) :
    role (.character c) = .literal c := by
  simp [role, h]

theorem role_operator {c : Char} {op : Operator} (h : Operator.ofChar? c = some op) :
    role (.character c) = .token (.operator op) := by
  have hOperator : isOperatorChar c = true := by rw [isOperatorChar, h]; rfl
  have hDigit : isAsciiDigit c = false := isAsciiDigit_of_isOperatorChar hOperator
  have hPoint : c ≠ '.' := (not_number_of_isOperatorChar hOperator).2
  simp [role, hDigit, isDecimalPoint, hPoint, h]

theorem exists_operator_of_role {c : Char} {token : Token} (hOpen : c ≠ '(') (hClose : c ≠ ')')
    (h : role (.character c) = .token token) : ∃ op, token = .operator op := by
  rw [role] at h
  split at h
  · cases h
  · split at h
    · exact ⟨_, (Role.token.inj h).symm⟩
    · split at h <;> cases h

end Glyph

end KeypadCalculator
