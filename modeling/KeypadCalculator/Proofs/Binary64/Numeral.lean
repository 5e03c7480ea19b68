import KeypadCalculator.Proofs.Binary64.Nearest
import KeypadCalculator.Proofs.Token.NumeralText
import KeypadCalculator.Proofs.Text.Digits

/-!
Numerals as they are written, beside the reader that takes them from the front of
a text, and the value of a numeral as one rounded quotient.
-/

namespace KeypadCalculator

open Text

namespace Numeral

/-- A point and the digits behind it; nothing where there are none. -/
def pointed (digits : List Char) : List Char :=
  if digits.isEmpty then [] else '.' :: digits

/-- A power of ten, always with its sign; nothing where it has no digits. -/
def powerText (negative : Bool) (digits : List Char) : List Char :=
  if digits.isEmpty then [] else 'e' :: (if negative then '-' else '+') :: digits

/-- The numeral as it is written. -/
def text (n : Numeral) : List Char :=
  Binary64.signed n.negative (n.whole ++ (pointed n.fraction ++ powerText n.negativePower n.power))

theorem allDecimal_of_all {digits : List Char} (h : digits.all isAsciiDigit = true) :
    AllDecimal digits := fun c hMem =>
  isDecimalDigit_of_isAsciiDigit (List.all_eq_true.mp h c hMem)

theorem mantissaText_pointed {whole fraction : List Char} (hWhole : AllDecimal whole)
    (hSome : whole ≠ []) (hFraction : AllDecimal fraction) :
    MantissaText whole fraction (whole ++ pointed fraction) := by
  cases fraction with
  | nil =>
      rw [pointed, List.isEmpty_nil, if_pos rfl, List.append_nil]
      exact .plain hWhole hSome
  | cons d rest => exact .pointed hWhole hFraction (.inl hSome)

theorem powerText_writes {negative : Bool} {digits : List Char} (hDigits : AllDecimal digits)
    (hSign : digits = [] → negative = false) :
    PowerText negative digits (powerText negative digits) := by
  cases digits with
  | nil =>
      rw [hSign rfl]
      exact .none
  | cons d rest =>
      cases negative with
      | false => exact .power (.inl rfl) .plus hDigits (List.cons_ne_nil d rest)
      | true => exact .power (.inl rfl) .minus hDigits (List.cons_ne_nil d rest)

/-- A numeral with a digit in front of its point is written by its text. -/
theorem writes_text {n : Numeral} (hAscii : n.isAscii = true) (hSome : n.whole ≠ [])
    (hPower : n.power = [] → n.negativePower = false) : n.Writes n.text := by
  simp only [isAscii, Bool.and_eq_true] at hAscii
  obtain ⟨⟨hWhole, hFraction⟩, hDigits⟩ := hAscii
  have hMantissa := mantissaText_pointed (allDecimal_of_all hWhole) hSome
    (allDecimal_of_all hFraction)
  have hPowerText := powerText_writes (allDecimal_of_all hDigits) hPower
  have hSign : SignText n.negative (Binary64.signed n.negative []) := by
    cases n.negative
    · exact .none
    · exact .minus
  have hText : n.text = Binary64.signed n.negative [] ++
      (n.whole ++ pointed n.fraction ++ powerText n.negativePower n.power) := by
    rw [text, List.append_assoc]
    cases n.negative <;> rfl
  rw [hText]
  exact .intro hSign hMantissa hPowerText

/-- It is read as it was written. -/
theorem leading?_text {n : Numeral} (hAscii : n.isAscii = true) (hSome : n.whole ≠ [])
    (hPower : n.power = [] → n.negativePower = false) : leading? n.text = some n :=
  (writes_text hAscii hSome hPower).leading?_eq_some

end Numeral

namespace Binary64

theorem tenPow_add (a b : Nat) : tenPow (a + b) = tenPow a * tenPow b :=
  Nat.pow_add 10 a b

theorem tenPow_pos (n : Nat) : 0 < tenPow n :=
  Nat.pow_pos (by decide)

theorem tenPow_mono {a b : Nat} (h : a ≤ b) : tenPow a ≤ tenPow b :=
  Nat.pow_le_pow_right (by decide) h

theorem lt_tenPow_log2 (n : Nat) : n < tenPow (n.log2 + 1) :=
  Nat.lt_of_lt_of_le Nat.lt_log2_self (Nat.pow_le_pow_left (by decide) _)

theorem tenPow_le_unitExpansion : tenPow 7 ≤ unitExpansion := by
  decide +kernel

theorem unitExpansion_pos : 0 < unitExpansion :=
  Nat.lt_of_lt_of_le (tenPow_pos 7) tenPow_le_unitExpansion

/-- A one is `10 ^ 1074` times the place in which expansions are counted. -/
theorem one_mul_unitExpansion : one * unitExpansion = tenPow 1074 := by
  decide +kernel

theorem not_representable_nearest {num den : Nat} (hDen : 0 < den)
    (h : twoPow 2098 * den ≤ num) : ¬ Representable (nearest num den) := by
  have hGreat : twoPow 2098 ≤ nearest num den := le_nearest hDen (twoPow_lastPlace_dvd 2098) h
  exact fun hRepresentable => Nat.lt_irrefl _ (Nat.lt_of_lt_of_le hRepresentable.1 hGreat)

/-- A decimal with 401 zeros in front of its point is too great for the format. -/
theorem twoPow_mul_tenPow_le {coefficient up down : Nat} (hCoefficient : 0 < coefficient)
    (h : 401 + down ≤ up) : twoPow 2098 * tenPow down ≤ coefficient * tenPow up * one :=
  calc twoPow 2098 * tenPow down ≤ tenPow 401 * one * tenPow down :=
        Nat.mul_le_mul_right _ (by decide +kernel)
    _ = tenPow (401 + down) * one := by rw [tenPow_add, Nat.mul_right_comm]
    _ ≤ tenPow up * one := Nat.mul_le_mul_right _ (tenPow_mono h)
    _ ≤ coefficient * tenPow up * one :=
      Nat.mul_le_mul_right _ (Nat.le_mul_of_pos_left _ hCoefficient)

/-- A decimal with 400 zeros behind its point is less than half the least magnitude of
the format. A coefficient has no more digits in base ten than in base two. -/
theorem two_mul_lt_tenPow {coefficient up down : Nat}
    (h : coefficient.log2 + 1 + up + 400 ≤ down) :
    2 * (coefficient * tenPow up * one) < tenPow down := by
  have hLess : coefficient * tenPow up < tenPow (coefficient.log2 + 1 + up) := by
    rw [tenPow_add]
    exact Nat.mul_lt_mul_of_pos_right (lt_tenPow_log2 coefficient) (tenPow_pos up)
  calc 2 * (coefficient * tenPow up * one) = coefficient * tenPow up * (2 * one) :=
        Nat.mul_left_comm ..
    _ ≤ coefficient * tenPow up * tenPow 400 := Nat.mul_le_mul_left _ (by decide +kernel)
    _ < tenPow (coefficient.log2 + 1 + up) * tenPow 400 :=
      Nat.mul_lt_mul_of_pos_right hLess (tenPow_pos 400)
    _ = tenPow (coefficient.log2 + 1 + up + 400) := (tenPow_add ..).symm
    _ ≤ tenPow down := tenPow_mono h

/-- The reader's shortcuts for very great and very small powers of ten make no
difference: what it reads is the number nearest to the decimal. -/
theorem ofDecimal_sub (negative : Bool) (coefficient up down : Nat) :
    ofDecimal negative coefficient ((up : Int) - down) =
      ofQuotient negative (coefficient * tenPow up * one) (tenPow down) := by
  rw [ofDecimal]
  split
  · rename_i hZero
    rw [hZero, Nat.zero_mul, Nat.zero_mul, ofQuotient, nearest_eq_zero (tenPow_pos down)]
  rename_i hCoefficient
  split
  · rename_i hGreat
    have hNum := twoPow_mul_tenPow_le (Nat.pos_of_ne_zero hCoefficient)
      (show 401 + down ≤ up by omega)
    rw [ofQuotient, ofUnits, dif_neg (not_representable_nearest (tenPow_pos down) hNum)]
  split
  · rename_i hSmall
    have hNum := two_mul_lt_tenPow (show coefficient.log2 + 1 + up + 400 ≤ down by omega)
    rw [ofQuotient, nearest_eq_zero hNum]
  split
  · have hUp : up = ((up : Int) - down).toNat + down := by omega
    generalize ((up : Int) - down).toNat = k at hUp ⊢
    have hCross :
        coefficient * tenPow k * one * tenPow down = coefficient * tenPow up * one * 1 := by
      rw [hUp, tenPow_add, Nat.mul_one, ← Nat.mul_assoc, Nat.mul_right_comm]
    rw [ofQuotient, ofQuotient, nearest_eq_of_mul_eq (by decide) (tenPow_pos down) hCross]
  · have hDown : down = up + (-((up : Int) - down)).toNat := by omega
    generalize (-((up : Int) - down)).toNat = k at hDown ⊢
    have hCross :
        coefficient * one * tenPow down = coefficient * tenPow up * one * tenPow k := by
      rw [hDown, tenPow_add, ← Nat.mul_assoc, Nat.mul_right_comm coefficient]
    rw [ofQuotient, ofQuotient, nearest_eq_of_mul_eq (tenPow_pos k) (tenPow_pos down) hCross]

theorem ofDecimal_eq_ofQuotient (negative : Bool) (coefficient power : Nat) :
    ofDecimal negative coefficient ((power : Int) - 1074) =
      ofQuotient negative (coefficient * tenPow power) unitExpansion := by
  have hCross : coefficient * tenPow power * one * unitExpansion =
      coefficient * tenPow power * tenPow 1074 := by
    rw [Nat.mul_assoc, one_mul_unitExpansion]
  have hDecimal := ofDecimal_sub negative coefficient power 1074
  rw [ofQuotient, nearest_eq_of_mul_eq (tenPow_pos 1074) unitExpansion_pos hCross] at hDecimal
  exact hDecimal

/-- A written numeral comes to the number nearest to its decimal. -/
theorem leading?_text {n : Numeral} {power : Nat} (hAscii : n.isAscii = true)
    (hSome : n.whole ≠ []) (hSign : n.power = [] → n.negativePower = false)
    (hPower : n.exponent = (power : Int) - 1074) :
    leading? n.text =
      some (ofQuotient n.negative (n.coefficient * tenPow power) unitExpansion) := by
  simp only [leading?, Numeral.leading?_text hAscii hSome hSign, hAscii, if_true, hPower,
    ofDecimal_eq_ofQuotient]

end Binary64

end KeypadCalculator
