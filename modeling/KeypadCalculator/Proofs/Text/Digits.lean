import KeypadCalculator.Binary64.Decimal
import KeypadCalculator.Text.DecimalDigit

/-!
Rows of ASCII digits and the numbers that they write: the digits of a number
read as that number, zeros in front of them count nothing, and zeros behind them
count a power of ten each.
-/

namespace KeypadCalculator.Text

open Binary64

theorem isAsciiDigit_of_isDigit {c : Char} (h : c.isDigit = true) : isAsciiDigit c = true := by
  simpa [Char.isDigit, isAsciiDigit, Char.le_def] using h

theorem all_isAsciiDigit_toDigits (n : Nat) :
    (Nat.toDigits 10 n).all isAsciiDigit = true := by
  rw [List.all_eq_true]
  intro c hMem
  exact isAsciiDigit_of_isDigit (Nat.isDigit_of_mem_toDigits (by decide) (by decide) hMem)

theorem digitsValue_toDigits (n : Nat) : digitsValue (Nat.toDigits 10 n) = n :=
  Nat.ofDigitChars_ten_toDigits

/-- No zero stands in front of the digits of a number. -/
theorem exists_toDigits_eq_cons {n : Nat} (h : 0 < n) :
    ∃ c digits, Nat.toDigits 10 n = c :: digits ∧ c ≠ '0' := by
  induction n using Nat.strongRecOn with
  | ind n ih =>
      by_cases hDigit : n < 10
      · have hAll : ∀ d < 10, 0 < d → Nat.digitChar d ≠ '0' := by decide
        exact ⟨Nat.digitChar n, [], Nat.toDigits_of_lt_base hDigit, hAll n hDigit h⟩
      · obtain ⟨c, digits, hDigits, hZero⟩ := ih (n / 10) (by omega) (by omega)
        refine ⟨c, digits ++ [Nat.digitChar (n % 10)], ?_, hZero⟩
        rw [Nat.toDigits_of_base_le (by decide) (by omega), hDigits, List.cons_append]

theorem digitsValue_append (front rest : List Char) :
    digitsValue (front ++ rest) = tenPow rest.length * digitsValue front + digitsValue rest := by
  rw [digitsValue, Nat.ofDigitChars_append, Nat.ofDigitChars_eq_ofDigitChars_zero]
  rfl

theorem digitsValue_zeros (n : Nat) : digitsValue (List.replicate n '0') = 0 := by
  rw [digitsValue, Nat.ofDigitChars_replicate_zero, Nat.mul_zero]

theorem digitsValue_leftpad (places : Nat) (digits : List Char) :
    digitsValue (digits.leftpad places '0') = digitsValue digits := by
  rw [List.leftpad, digitsValue_append, digitsValue_zeros, Nat.mul_zero, Nat.zero_add]

theorem all_isAsciiDigit_leftpad {digits : List Char} (places : Nat)
    (h : digits.all isAsciiDigit = true) :
    (digits.leftpad places '0').all isAsciiDigit = true := by
  have hZero : isAsciiDigit '0' = true := by decide
  simp [List.leftpad, h, hZero]

theorem length_leftpad_toDigits {places n : Nat} (hPlaces : 0 < places) (h : n < tenPow places) :
    ((Nat.toDigits 10 n).leftpad places '0').length = places := by
  have hLength : (Nat.toDigits 10 n).length ≤ places :=
    (Nat.length_toDigits_le_iff (by decide) hPlaces).2 h
  simp only [List.leftpad, List.length_append, List.length_replicate]
  omega

/-- Digits without the zeros at their end, and those zeros. -/
theorem stripped_append_zeros (digits : List Char) :
    (digits.reverse.dropWhile (· == '0')).reverse ++
      List.replicate (digits.reverse.takeWhile (· == '0')).length '0' = digits := by
  have hZeros : (digits.reverse.takeWhile (· == '0')).reverse =
      List.replicate (digits.reverse.takeWhile (· == '0')).length '0' := by
    rw [List.eq_replicate_iff, List.length_reverse]
    refine ⟨rfl, fun c hMem => ?_⟩
    simpa using List.all_eq_true.mp List.all_takeWhile c (List.mem_reverse.mp hMem)
  rw [← hZeros, ← List.reverse_append, List.takeWhile_append_dropWhile, List.reverse_reverse]

end KeypadCalculator.Text
