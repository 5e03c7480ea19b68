import Mathlib.Tactic.NormNum
import KeypadCalculator.Proofs.Binary64.RoundsTo
import KeypadCalculator.Proofs.Token.Literal

/-!
The number at the front of a text. It is the rounding of what the longest numeral there
stands for, and what follows that numeral makes no difference. A literal has no value
where it begins with two points or is nothing but one, and nothing counts from its second
point on.
-/

namespace KeypadCalculator

open Text Binary64

namespace Numeral

/-- What the digits of a numeral stand for. -/
def magnitude (n : Numeral) : ℚ :=
  let mantissa : ℚ :=
    digitsValue n.whole + digitsValue n.fraction / tenPow n.fraction.length
  if n.negativePower then mantissa / tenPow (digitsValue n.power)
  else mantissa * tenPow (digitsValue n.power)

/-- What a numeral stands for. -/
def number (n : Numeral) : ℚ :=
  withSign n.negative n.magnitude

theorem cast_coefficient (n : Numeral) :
    (n.coefficient : ℚ) =
      (digitsValue n.whole + digitsValue n.fraction / tenPow n.fraction.length) *
        tenPow n.fraction.length := by
  have hPlaces : (tenPow n.fraction.length : ℚ) ≠ 0 :=
    Nat.cast_ne_zero.mpr (Nat.ne_of_gt (tenPow_pos _))
  rw [coefficient, digitsValue_append, Nat.cast_add, Nat.cast_mul, add_mul,
    div_mul_cancel₀ _ hPlaces, mul_comm]

/-- A numeral is read as the rounding of what it stands for. -/
theorem roundsTo_ofDecimal (n : Numeral) :
    RoundsTo n.number n.negative (ofDecimal n.negative n.coefficient n.exponent) := by
  obtain ⟨up, down, hExponent, hMagnitude⟩ : ∃ up down : Nat, n.exponent = (up : Int) - down ∧
      n.magnitude = quotient (n.coefficient * tenPow up * one) (tenPow down) := by
    have hPlaces : (tenPow n.fraction.length : ℚ) ≠ 0 :=
      Nat.cast_ne_zero.mpr (Nat.ne_of_gt (tenPow_pos _))
    cases hNegative : n.negativePower with
    | true =>
        refine ⟨0, digitsValue n.power + n.fraction.length, ?_, ?_⟩
        · simp only [exponent, hNegative, if_true]
          omega
        · have hNone : tenPow 0 = 1 := rfl
          rw [quotient_mul_one, tenPow_add, hNone, Nat.mul_one, Nat.cast_mul, cast_coefficient,
            mul_div_mul_right _ _ hPlaces]
          simp only [magnitude, hNegative, if_true]
    | false =>
        refine ⟨digitsValue n.power, n.fraction.length, ?_, ?_⟩
        · simp [exponent, hNegative]
        · rw [quotient_mul_one, Nat.cast_mul, cast_coefficient, mul_right_comm,
            mul_div_cancel_right₀ _ hPlaces]
          simp only [magnitude, hNegative, Bool.false_eq_true, if_false]
  rw [number, hExponent, ofDecimal_sub, hMagnitude]
  exact roundsTo_ofQuotient n.negative _ (tenPow_pos down)

end Numeral

namespace Binary64

open Numeral

variable {text front : List Char} {n : Numeral}

/-- What follows the longest numeral makes no difference. -/
theorem leading?_eq_of_longestPrefix (h : LongestPrefix IsText (skipBlanks text) front) :
    leading? text = leading? front := by
  cases hRead : Numeral.leading? text with
  | none => exact absurd h.begins (Numeral.leading?_eq_none_iff.mp hRead front h.holds)
  | some n =>
      obtain ⟨front', hWrites, hLongest⟩ := exists_longestPrefix hRead
      rw [← h.unique hLongest] at hWrites
      rw [leading?, leading?, hRead, hWrites.leading?_eq_some]
      simp only [exponent_settled]
      rfl

/-- A numeral by itself has no value where a digit of it is not an ASCII digit. -/
theorem leading?_of_writes (h : n.Writes front) :
    leading? front =
      if n.isAscii then some (ofDecimal n.negative n.coefficient n.exponent) else none := by
  rw [leading?, h.leading?_eq_some]

theorem leading?_eq_none_iff_of_longestPrefix
    (h : LongestPrefix IsText (skipBlanks text) front) :
    leading? text = none ↔ ∃ c ∈ front, isDecimalDigit c = true ∧ isAsciiDigit c = false := by
  obtain ⟨n, hWrites⟩ := h.holds
  have hValue : leading? front = none ↔ ¬ n.isAscii = true := by
    rw [leading?_of_writes hWrites]
    split
    · rename_i hAscii
      exact iff_of_false (Option.some_ne_none _) (not_not_intro hAscii)
    · rename_i hOther
      exact iff_of_true rfl hOther
  rw [leading?_eq_of_longestPrefix h, hValue, hWrites.isAscii_iff]
  simp only [not_forall, exists_prop, Bool.not_eq_true]

end Binary64

open Numeral

/-- The number at the front of a text is the rounding of the longest numeral there, behind
blanks. There is none without such a numeral, or where a digit of it is not an ASCII digit.
A literal has none if it is a point or begins with two, and its second point ends what
counts. -/
theorem leading_number_of_longest :
    (∀ text : List Char,
      (Binary64.leading? text = none ↔
        (∀ front, IsText front → ¬ front <+: skipBlanks text) ∨
          ∃ front, LongestPrefix IsText (skipBlanks text) front ∧
            ∃ c ∈ front, isDecimalDigit c = true ∧ isAsciiDigit c = false) ∧
      ∀ front, LongestPrefix IsText (skipBlanks text) front →
        Binary64.leading? text = Binary64.leading? front ∧
          ∀ n : Numeral, n.Writes front →
            (∀ c ∈ front, isDecimalDigit c = true → isAsciiDigit c = true) →
              ∃ b, Binary64.leading? text = some b ∧ RoundsTo n.number n.negative b) ∧
    ∀ literal : List Char, literal ≠ [] → (∀ c ∈ literal, IsLiteralChar c) →
      ((Token.number literal).value? = none ↔ literal = ['.'] ∨ ['.', '.'] <+: literal) ∧
        ∀ front back, literal = front ++ '.' :: back → front.count '.' = 1 →
          (Token.number literal).value? = (Token.number front).value? := by
  refine ⟨fun text => ⟨⟨fun hNone => ?_, ?_⟩, fun front hFront => ⟨?_, ?_⟩⟩,
    fun literal hSome h => ⟨value?_eq_none_iff hSome h, ?_⟩⟩
  · cases hRead : Numeral.leading? text with
    | none => exact .inl (Numeral.leading?_eq_none_iff.mp hRead)
    | some n =>
        obtain ⟨front, -, hFront⟩ := exists_longestPrefix hRead
        exact .inr ⟨front, hFront, (leading?_eq_none_iff_of_longestPrefix hFront).mp hNone⟩
  · rintro (hNone | ⟨front, hFront, hOther⟩)
    · rw [Binary64.leading?, Numeral.leading?_eq_none_iff.mpr hNone]
    · exact (leading?_eq_none_iff_of_longestPrefix hFront).mpr hOther
  · exact leading?_eq_of_longestPrefix hFront
  · intro n hWrites hAscii
    refine ⟨_, ?_, n.roundsTo_ofDecimal⟩
    rw [leading?_eq_of_longestPrefix hFront, leading?_of_writes hWrites,
      if_pos (hWrites.isAscii_iff.mpr hAscii)]
  · rintro front back rfl hOne
    exact value?_second_point (List.forall_mem_append.mp h).1 hOne back

/-- The letter behind `12.5` begins no power of ten, because no digit follows it. -/
theorem leading_number_of_longest_letters :
    (∃ b, Binary64.leading? [' ', '1', '2', '.', '5', 'e', 'x'] = some b ∧
      RoundsTo (25 / 2) false b) ∧
    (Token.number ['1', '2', '.', '5', '.', '7']).value? =
      (Token.number ['1', '2', '.', '5']).value? := by
  have hMantissa : MantissaText ['1', '2'] ['5'] ['1', '2', '.', '5'] :=
    .pointed (by decide) (by decide) (.inl (by decide))
  have hWrites := hMantissa.writes
  have hFront : LongestPrefix IsText (skipBlanks [' ', '1', '2', '.', '5', 'e', 'x'])
      ['1', '2', '.', '5'] := hWrites.longestPrefix rfl
  have hNumber : Numeral.number ⟨false, ['1', '2'], ['5'], false, []⟩ = 25 / 2 := by
    have hWhole : digitsValue ['1', '2'] = 12 := by decide
    have hFraction : digitsValue ['5'] = 5 := by decide
    have hPower : digitsValue [] = 0 := by decide
    simp only [Numeral.number, Numeral.magnitude, withSign, hWhole, hFraction, hPower]
    norm_num
  obtain ⟨hText, hLiteral⟩ := leading_number_of_longest
  have hRounds := ((hText _).2 _ hFront).2 _ hWrites (hWrites.isAscii_iff.mp (by decide))
  rw [hNumber] at hRounds
  have hSecond := (hLiteral ['1', '2', '.', '5', '.', '7'] (by decide)
    (by simp [IsLiteralChar, isAsciiDigit])).2 ['1', '2', '.', '5'] ['7'] rfl (by decide)
  exact ⟨hRounds, hSecond⟩

end KeypadCalculator
