import KeypadCalculator.Proofs.Display.Shape

/-!
The preview of a settled text. It is the same number, and the same text but for one thing:
a number with all its digits that is above `10 ^ 12`, or below `10 ^ -6` and not zero, is
in scientific notation. Which of the two it is can be told from the digits of the text, as
shown decimals have the order of the numbers that they are read as.
-/

namespace KeypadCalculator

open Binary64 Text

theorem nearest_shownExpansion {units : Nat} (h : twoPow (lastPlace units) ∣ units) :
    nearest (shownExpansion units) unitExpansion = units :=
  Decimal.readsBack_shortest h

/-- Shown decimals have the order of the magnitudes that they are read as. -/
theorem shownExpansion_lt_iff {units units' : Nat} (h : twoPow (lastPlace units) ∣ units)
    (h' : twoPow (lastPlace units') ∣ units') :
    shownExpansion units < shownExpansion units' ↔ units < units' := by
  have hBack {a b : Nat} (ha : twoPow (lastPlace a) ∣ a) (hb : twoPow (lastPlace b) ∣ b)
      (hLe : shownExpansion a ≤ shownExpansion b) : a ≤ b := by
    have hMono := nearest_mono unitExpansion_pos hLe
    rwa [nearest_shownExpansion ha, nearest_shownExpansion hb] at hMono
  constructor
  · intro hLess
    refine Nat.lt_of_le_of_ne (hBack h h' (Nat.le_of_lt hLess)) ?_
    rintro rfl
    exact Nat.lt_irrefl _ hLess
  · intro hLess
    exact Nat.lt_of_not_le fun hLe => Nat.not_le_of_lt hLess (hBack h' h hLe)

/-- The bounds of a preview, told from the shown decimal. -/
theorem excludes_previewBounds_iff {units : Nat} (h : twoPow (lastPlace units) ∣ units) :
    previewBounds.excludes units = true ↔
      tenPow 1086 < shownExpansion units ∨
        0 < shownExpansion units ∧ shownExpansion units < tenPow 1068 := by
  have hAbove : twoPow (lastPlace previewBounds.above) ∣ previewBounds.above ∧
      shownExpansion previewBounds.above = tenPow 1086 := by decide +kernel
  have hBelow : twoPow (lastPlace previewBounds.below) ∣ previewBounds.below ∧
      shownExpansion previewBounds.below = tenPow 1068 := by decide +kernel
  have hPos := shownExpansion_lt_iff representable_zero.2 h
  rw [shownExpansion_zero] at hPos
  rw [← hAbove.2, ← hBelow.2, shownExpansion_lt_iff hAbove.1 h, shownExpansion_lt_iff h hBelow.1,
    hPos]
  simp only [Bounds.excludes, Bool.or_eq_true, Bool.and_eq_true, decide_eq_true_eq, bne_iff_ne,
    Nat.pos_iff_ne_zero]

/-- The digits of a numeral say that it is above `10 ^ 12`, or below `10 ^ -6` and not zero. -/
def Numeral.IsExtreme (n : Numeral) : Prop :=
  tenPow (12 + n.fraction.length) < n.coefficient ∨
    0 < n.coefficient ∧ n.coefficient * tenPow 6 < tenPow n.fraction.length

theorem coefficient_plainNumeral {negative : Bool} {units : Nat}
    (h : (plainNumeral negative units).IsPlain) :
    (plainNumeral negative units).coefficient *
      tenPow (1074 - (plainNumeral negative units).fraction.length) = shownExpansion units := by
  have hNoPower := h.power
  have hLength := h.length_fraction
  rw [plainNumeral] at hNoPower hLength ⊢
  split
  · rename_i hZero
    have hNone : Numeral.coefficient ⟨false, ['0'], [], false, []⟩ = 0 := rfl
    rw [hZero, shownExpansion_zero, hNone, Nat.zero_mul]
  · rename_i hSome
    rw [if_neg hSome] at hNoPower hLength
    obtain ⟨power, hPower, hValue⟩ := (Decimal.shortest units).exists_exponent_numeral negative
    have hNone : digitsValue [] = 0 := rfl
    simp only [Numeral.exponent, hNoPower, hNone] at hPower
    have hPlaces : 1074 - ((Decimal.shortest units).numeral negative).fraction.length = power := by
      split at hPower
      · omega
      · omega
    rw [hPlaces, hValue, shownExpansion]

/-- A numeral without a power of ten is compared with the bounds place by place. -/
theorem isExtreme_iff {n : Numeral} (h : n.fraction.length ≤ 12) :
    n.IsExtreme ↔ tenPow 1086 < n.coefficient * tenPow (1074 - n.fraction.length) ∨
      0 < n.coefficient * tenPow (1074 - n.fraction.length) ∧
        n.coefficient * tenPow (1074 - n.fraction.length) < tenPow 1068 := by
  have hHigh : tenPow 1086 =
      tenPow (12 + n.fraction.length) * tenPow (1074 - n.fraction.length) := by
    rw [← tenPow_add]
    exact congrArg tenPow (by omega)
  have hLow : tenPow 1068 * tenPow 6 =
      tenPow n.fraction.length * tenPow (1074 - n.fraction.length) := by
    rw [← tenPow_add, ← tenPow_add]
    exact congrArg tenPow (by omega)
  have hPos := tenPow_pos (1074 - n.fraction.length)
  have hSmall : n.coefficient * tenPow (1074 - n.fraction.length) < tenPow 1068 ↔
      n.coefficient * tenPow 6 < tenPow n.fraction.length := by
    rw [← Nat.mul_lt_mul_right (tenPow_pos 6), hLow, Nat.mul_right_comm,
      Nat.mul_lt_mul_right hPos]
  rw [Numeral.IsExtreme, hSmall, hHigh, Nat.mul_lt_mul_right hPos,
    Nat.mul_pos_iff_of_pos_right hPos]

theorem isExtreme_plainNumeral_iff {negative : Bool} {units : Nat}
    (hPlain : (plainNumeral negative units).IsPlain) (h : twoPow (lastPlace units) ∣ units) :
    (plainNumeral negative units).IsExtreme ↔ previewBounds.excludes units = true := by
  rw [isExtreme_iff hPlain.length_fraction, coefficient_plainNumeral hPlain,
    excludes_previewBounds_iff h]

section Preview

variable {units : Nat}

/-- What a settled text in scientific notation is read as is beyond the bounds of a preview
as well: seven digits keep the order, and both bounds of a settled text are beyond them. -/
theorem excludes_sevenRead (h : settledBounds.excludes units = true)
    (hFormat : twoPow (lastPlace units) ∣ units) :
    previewBounds.excludes (sevenRead units) = true := by
  have hSome := settledBounds.ne_zero_of_excludes h
  have hRead := sevenRead_ne_zero hFormat hSome
  have hBound : settledBounds.above ≠ 0 := Nat.ne_of_gt (Nat.zero_lt_of_lt above_previewBounds_lt)
  simp only [Bounds.excludes, Bool.or_eq_true, Bool.and_eq_true, decide_eq_true_eq,
    bne_iff_ne] at h ⊢
  rcases h with hMore | ⟨-, hLess⟩
  · have hMono := sevenRead_mono hBound (Nat.le_of_lt hMore)
    rw [settledBounds.sevenRead_above] at hMono
    exact .inl (Nat.lt_of_lt_of_le above_previewBounds_lt hMono)
  · have hMono := sevenRead_mono hSome (Nat.le_of_lt hLess)
    rw [settledBounds.sevenRead_below] at hMono
    exact .inr ⟨hRead, Nat.lt_of_le_of_lt hMono below_settledBounds_lt⟩

/-- Scientific notation of a settled text stays in the preview. -/
theorem previewText_scientific (hUnits : Representable units)
    (h : settledBounds.excludes units = true) (negative : Bool) :
    previewText (signed negative (scientific units)) = signed negative (scientific units) := by
  obtain ⟨hRead, hLeading⟩ := settledBounds.leading?_scientific_excluded hUnits h negative
  rw [previewText_of_leading? hLeading, previewNumber_finite, Bounds.text,
    if_pos (excludes_sevenRead h hUnits.2),
    scientific_sevenRead hUnits.2 (settledBounds.ne_zero_of_excludes h)]

theorem plainText_negative_plainNumeral (negative : Bool) (units : Nat) :
    plainText (plainNumeral negative units).negative units = plainText negative units := by
  by_cases hZero : units = 0
  · rw [hZero, plainText_zero, plainText_zero]
  · rw [plainNumeral, if_neg hZero, Decimal.negative_numeral]

/-- The preview of all digits is a number of the bounds of a preview. -/
theorem previewText_plainNumeral (negative : Bool) (h : Representable units) :
    previewText (plainNumeral negative units).text =
      if previewBounds.excludes units then
        signed (plainNumeral negative units).negative (scientific units)
      else (plainNumeral negative units).text := by
  have hRead := leading?_plainNumeral negative h.2
  rw [ofUnits_eq_finite h] at hRead
  rw [previewText_of_leading? hRead, previewNumber_finite, Bounds.text,
    plainText_negative_plainNumeral, plainText_eq]

end Preview

theorem representable_fourteenDigits : Representable (12345678901234 * one) := by
  unfold one
  exact representable_of_digits (by decide) (by decide)

end KeypadCalculator
