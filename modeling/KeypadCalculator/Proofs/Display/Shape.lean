import KeypadCalculator.Proofs.Binary64.SeventeenDigits
import KeypadCalculator.Proofs.Display.ShownAgain

/-!
The shape of a settled text. It is scientific notation with seven digits outside of the
bounds, and all digits within them: no zero stands in front of the whole part or at the
end of the fraction, and there are twelve places at most, since twelve places are read as
the rounded number and the shortest digits do not need more.
-/

namespace KeypadCalculator

open Binary64 Text

namespace Numeral

/-- Digits of which the first one is not zero. -/
def LeadsNonzero (digits : List Char) : Prop :=
  ∃ d rest, digits = d :: rest ∧ d ≠ '0'

/-- Scientific notation: one digit that is not zero, six digits behind the point, and a
power of ten without a zero in front. -/
structure IsScientific (n : Numeral) : Prop where
  isAscii : n.isAscii = true
  lead : ∃ d, n.whole = [d] ∧ d ≠ '0'
  length_fraction : n.fraction.length = 6
  power : LeadsNonzero n.power

/-- All digits: a whole part without a zero in front, unless it is zero itself, and up to
twelve digits behind the point, of which the last one is not zero. -/
structure IsPlain (n : Numeral) : Prop where
  isAscii : n.isAscii = true
  whole : n.whole = ['0'] ∨ LeadsNonzero n.whole
  length_fraction : n.fraction.length ≤ 12
  last_ne_zero : n.fraction.getLast? ≠ some '0'
  power : n.power = []

theorem IsScientific.not_isPlain {n : Numeral} (h : n.IsScientific) : ¬ n.IsPlain := by
  intro hPlain
  obtain ⟨d, rest, hPower, -⟩ := h.power
  rw [hPlain.power] at hPower
  cases hPower

theorem IsScientific.whole_ne_nil {n : Numeral} (h : n.IsScientific) : n.whole ≠ [] := by
  obtain ⟨d, hWhole, -⟩ := h.lead
  rw [hWhole]
  exact List.cons_ne_nil d []

theorem IsPlain.whole_ne_nil {n : Numeral} (h : n.IsPlain) : n.whole ≠ [] := by
  rcases h.whole with hWhole | ⟨d, rest, hWhole, -⟩
  · rw [hWhole]
    exact List.cons_ne_nil '0' []
  · rw [hWhole]
    exact List.cons_ne_nil d rest

theorem leadsNonzero_toDigits {n : Nat} (h : n ≠ 0) : LeadsNonzero (Nat.toDigits 10 n) :=
  exists_toDigits_eq_cons (Nat.pos_of_ne_zero h)

theorem toDigits_eq_zero_or_leadsNonzero (n : Nat) :
    Nat.toDigits 10 n = ['0'] ∨ LeadsNonzero (Nat.toDigits 10 n) := by
  rcases Nat.eq_zero_or_pos n with rfl | hPos
  · exact .inl rfl
  · exact .inr (leadsNonzero_toDigits (Nat.ne_of_gt hPos))

theorem signed_append (negative : Bool) (front rest : List Char) :
    signed negative (front ++ rest) = signed negative front ++ rest := by
  cases negative <;> rfl

/-- A written numeral ends in digits: those of its power of ten, those behind the point, or
those of its whole part. -/
theorem exists_text_eq_append {n : Numeral} (h : n.isAscii = true) (hWhole : n.whole ≠ []) :
    ∃ front digits, n.text = front ++ digits ∧ digits ≠ [] ∧ digits.all isAsciiDigit = true := by
  simp only [isAscii, Bool.and_eq_true] at h
  obtain ⟨⟨hDigits, hFraction⟩, hPower⟩ := h
  rw [text, ← List.append_assoc, signed_append, signed_append]
  by_cases hNoPower : n.power = []
  · by_cases hNoFraction : n.fraction = []
    · refine ⟨signed n.negative [], n.whole, ?_, hWhole, hDigits⟩
      simp only [hNoPower, hNoFraction, pointed, powerText, List.isEmpty_nil, if_true,
        List.append_nil]
      exact signed_append n.negative [] n.whole
    · refine ⟨signed n.negative n.whole ++ ['.'], n.fraction, ?_, hNoFraction, hFraction⟩
      simp [hNoPower, pointed, powerText, hNoFraction]
  · refine ⟨signed n.negative n.whole ++ pointed n.fraction ++
      ['e', if n.negativePower then '-' else '+'], n.power, ?_, hNoPower, hPower⟩
    simp [powerText, hNoPower]

theorem getLast?_text_ne_point {n : Numeral} (h : n.isAscii = true) (hWhole : n.whole ≠ []) :
    n.text.getLast? ≠ some '.' := by
  obtain ⟨front, digits, hText, hSome, hDigits⟩ := exists_text_eq_append h hWhole
  rw [hText, List.getLast?_append, List.getLast?_eq_some_getLast hSome, Option.some_or]
  intro hPoint
  have hLast := List.all_eq_true.1 hDigits _ (List.getLast_mem hSome)
  rw [Option.some.inj hPoint] at hLast
  exact absurd hLast (by decide)

end Numeral

section Scientific

variable {units : Nat}

theorem sevenDigits_bounds (hSome : units ≠ 0) :
    tenPow 6 ≤ (sevenDigits units).1 ∧ (sevenDigits units).1 < tenPow 7 := by
  obtain ⟨hLeast, hMost⟩ := leadingDigits_bounds hSome
  have hNext : tenPow 6 < tenPow 7 := by decide
  rw [sevenDigits_eq]
  split
  · exact ⟨Nat.le_refl _, hNext⟩
  · rename_i hLess
    exact ⟨hLeast, Nat.lt_of_le_of_ne hMost hLess⟩

/-- The first digit counts ones only for magnitudes next to one. -/
theorem power_sevenDigits_ne_zero (h : 10 * one ≤ units ∨ units * 10 < one) :
    (sevenDigits units).2 ≠ 0 := by
  have hTen : tenPow 1075 = 10 * one * unitExpansion := by
    rw [Nat.mul_assoc, one_mul_unitExpansion, show 1075 = 1074 + 1 from rfl, tenPow_succ]
  have hTenth : 10 * tenPow 1073 = one * unitExpansion := by
    rw [one_mul_unitExpansion, show 1074 = 1073 + 1 from rfl, tenPow_succ 1073]
  have hCount : 1075 < digitCount (expansion units) ∨ digitCount (expansion units) ≤ 1073 := by
    rcases h with hGreat | hSmall
    · have hExpansion : tenPow 1075 ≤ expansion units :=
        hTen ▸ Nat.mul_le_mul_right unitExpansion hGreat
      exact .inl (lt_of_tenPow_lt (Nat.lt_of_le_of_lt hExpansion (lt_tenPow_digitCount _)))
    · have hScaled : 10 * expansion units < 10 * tenPow 1073 := by
        rw [hTenth, expansion, ← Nat.mul_assoc, Nat.mul_comm 10]
        exact Nat.mul_lt_mul_of_pos_right hSmall unitExpansion_pos
      exact .inr (digitCount_le (by decide) (Nat.lt_of_mul_lt_mul_left hScaled))
  rw [sevenDigits_eq]
  split
  · dsimp only
    omega
  · dsimp only
    omega

theorem isScientific_scientificNumeral (negative : Bool) (hSome : units ≠ 0)
    (h : 10 * one ≤ units ∨ units * 10 < one) :
    (scientificNumeral (sevenDigits units) negative).IsScientific := by
  obtain ⟨hLeast, hMost⟩ := sevenDigits_bounds hSome
  have hPower := power_sevenDigits_ne_zero h
  generalize sevenDigits units = shown at hLeast hMost hPower ⊢
  refine ⟨isAscii_scientificNumeral shown negative, ?_,
    length_fraction_scientificNumeral shown negative,
    Numeral.leadsNonzero_toDigits (Int.natAbs_ne_zero.2 hPower)⟩
  have hDigit : shown.1 / tenPow 6 < 10 := (Nat.div_lt_iff_lt_mul (tenPow_pos 6)).2 hMost
  have hLead : shown.1 / tenPow 6 ≠ 0 := Nat.ne_of_gt (Nat.div_pos hLeast (tenPow_pos 6))
  obtain ⟨d, rest, hDigits, hNonzero⟩ := Numeral.leadsNonzero_toDigits hLead
  refine ⟨d, ?_, hNonzero⟩
  show Nat.toDigits 10 (shown.1 / tenPow 6) = [d]
  rw [Nat.toDigits_of_lt_base hDigit] at hDigits ⊢
  rw [(List.cons.inj hDigits).1]

/-- Bounds below a tenth and above ten, as of both displays. -/
structure Bounds.IsWide (bounds : Bounds) : Prop where
  below_mul_ten_lt : bounds.below * 10 < one
  ten_mul_one_le : 10 * one ≤ bounds.above

theorem isWide_previewBounds : previewBounds.IsWide :=
  ⟨by decide +kernel, Nat.mul_le_mul_right one (show 10 ≤ tenPow 12 by decide)⟩

/-- Both bounds of a settled text are beyond those of a preview. -/
theorem above_previewBounds_lt : previewBounds.above < settledBounds.above :=
  Nat.mul_lt_mul_of_pos_right (show tenPow 12 < tenPow 15 by decide) one_units_pos

theorem below_settledBounds_lt : settledBounds.below < previewBounds.below := by
  decide +kernel

theorem isWide_settledBounds : settledBounds.IsWide :=
  ⟨Nat.lt_trans (Nat.mul_lt_mul_of_pos_right below_settledBounds_lt (by decide))
      isWide_previewBounds.below_mul_ten_lt,
    Nat.le_trans isWide_previewBounds.ten_mul_one_le (Nat.le_of_lt above_previewBounds_lt)⟩

/-- Wide bounds leave only powers of ten with digits of their own. -/
theorem Bounds.IsWide.exists_isScientific {bounds : Bounds} (hWide : bounds.IsWide)
    (h : bounds.excludes units = true) (negative : Bool) :
    ∃ n : Numeral, n.IsScientific ∧ signed negative (scientific units) = n.text := by
  have hBelow := hWide.below_mul_ten_lt
  have hAbove := hWide.ten_mul_one_le
  refine ⟨scientificNumeral (sevenDigits units) negative, ?_, ?_⟩
  · refine isScientific_scientificNumeral negative (bounds.ne_zero_of_excludes h) ?_
    simp only [Bounds.excludes, Bool.or_eq_true, Bool.and_eq_true, decide_eq_true_eq] at h
    rcases h with hGreat | ⟨-, hSmall⟩
    · exact .inl (by omega)
    · exact .inr (by omega)
  · rw [scientific_eq, signed_scientificText]

end Scientific

section Plain

theorem getLast?_fractionDigits (places fraction : Nat) :
    (fractionDigits places fraction).getLast? ≠ some '0' := by
  rw [fractionDigits, List.getLast?_reverse]
  intro hZero
  have hHead := List.head?_dropWhile_not (· == '0')
    ((Nat.toDigits 10 fraction).leftpad places '0').reverse
  rw [hZero] at hHead
  exact absurd hHead (by decide)

theorem whole_numeral (d : Decimal) (negative : Bool) :
    (d.numeral negative).whole =
      Nat.toDigits 10 (d.coefficient * tenPow d.power / tenPow 1074) := by
  rw [Decimal.numeral]
  split
  · rename_i hWhole
    have hSplit : tenPow d.power = tenPow (d.power - 1074) * tenPow 1074 := by
      rw [← tenPow_add, Nat.sub_add_cancel hWhole]
    rw [hSplit, ← Nat.mul_assoc, Nat.mul_div_cancel _ (tenPow_pos 1074)]
  · rename_i hFraction
    have hSplit : tenPow 1074 = tenPow (1074 - d.power) * tenPow d.power := by
      rw [← tenPow_add, Nat.sub_add_cancel (by omega)]
    rw [hSplit, Nat.mul_div_mul_right _ _ (tenPow_pos d.power)]

/-- A decimal without digits below `10 ^ -12` is written with twelve of them at most. -/
theorem isPlain_numeral {d : Decimal} (h : 1062 ≤ d.power) (negative : Bool) :
    (d.numeral negative).IsPlain := by
  refine ⟨d.isAscii_numeral negative, ?_, ?_, ?_, ?_⟩
  · rw [whole_numeral]
    exact Numeral.toDigits_eq_zero_or_leadsNonzero _
  · rw [Decimal.numeral]
    split
    · exact Nat.zero_le 12
    · have hLength := (digitsValue_fractionDigits (show 0 < 1074 - d.power by omega)
        (Nat.mod_lt d.coefficient (tenPow_pos _))).1
      exact Nat.le_trans hLength (by omega)
  · rw [Decimal.numeral]
    split
    · simp
    · exact getLast?_fractionDigits _ _
  · rw [Decimal.numeral]
    split <;> rfl

/-- What the shortest digits of a magnitude stand for, in the places in which expansions are
counted. -/
def shownExpansion (units : Nat) : Nat :=
  (Decimal.shortest units).coefficient * tenPow (Decimal.shortest units).power

theorem shownExpansion_zero : shownExpansion 0 = 0 := by
  decide +kernel

/-- The numeral of a magnitude with all its digits. Zero has no sign. -/
def plainNumeral (negative : Bool) (units : Nat) : Numeral :=
  if units = 0 then ⟨false, ['0'], [], false, []⟩
  else (Decimal.shortest units).numeral negative

theorem plainText_eq (negative : Bool) (units : Nat) :
    plainText negative units = (plainNumeral negative units).text := by
  rw [plainText, plainNumeral]
  split
  · rfl
  · exact Decimal.signed_positional _ negative

/-- All digits are read as the magnitude with the sign that is shown. -/
theorem leading?_plainNumeral (negative : Bool) {units : Nat}
    (h : twoPow (lastPlace units) ∣ units) :
    leading? (plainNumeral negative units).text =
      some (ofUnits (plainNumeral negative units).negative units) := by
  by_cases hZero : units = 0
  · rw [plainNumeral, if_pos hZero, hZero]
    exact leading?_zero
  · rw [plainNumeral, if_neg hZero, Decimal.negative_numeral, ← Decimal.signed_positional]
    exact Decimal.leading?_shortest negative h

theorem whole_plainNumeral (negative : Bool) (units : Nat) :
    (plainNumeral negative units).whole =
      Nat.toDigits 10 (shownExpansion units / tenPow 1074) := by
  rw [plainNumeral]
  split
  · rename_i hZero
    rw [hZero, shownExpansion_zero, Nat.zero_div]
    rfl
  · exact whole_numeral _ negative

end Plain

section Settled

variable {units : Nat}

/-- The rounded number is what twelve places are read as. -/
theorem readsBack_twelvePlaces (units : Nat) :
    Decimal.ReadsBack (twelvePlaces units) ⟨roundHalfUp (timesTrillion units), 1062⟩ := by
  have hOne : tenPow 1062 * tenPow 12 = one * unitExpansion := by
    rw [one_mul_unitExpansion, show 1074 = 1062 + 12 from rfl, tenPow_add]
  refine nearest_eq_of_mul_eq unitExpansion_pos (tenPow_pos 12) ?_
  rw [Nat.mul_assoc, Nat.mul_assoc, hOne]
  rfl

/-- The lower bound is rounded upwards. -/
theorem one_le_nearest_mul : one ≤ nearest one (tenPow 10) * tenPow 10 := by
  decide +kernel

theorem tenPow_le_expansion_below : tenPow 1062 ≤ expansion settledBounds.below := by
  have hBelow : settledBounds.below = nearest one (tenPow 10) := rfl
  have hFew : tenPow 10 ≤ tenPow 12 := by decide
  have hScaled := Nat.mul_le_mul_right unitExpansion
    (Nat.le_trans one_le_nearest_mul (Nat.mul_le_mul_left (nearest one (tenPow 10)) hFew))
  rw [one_mul_unitExpansion, show 1074 = 1062 + 12 from rfl, tenPow_add, Nat.mul_right_comm]
    at hScaled
  rw [hBelow, expansion]
  exact Nat.le_of_mul_le_mul_right hScaled (tenPow_pos 12)

theorem le_power_twelvePlaces (h : settledBounds.excludes units = false)
    (hSome : twelvePlaces units ≠ 0) :
    1062 ≤ (Decimal.shortest (twelvePlaces units)).power := by
  have hFormat := (representable_twelvePlaces (settlesScientific_eq units ▸ h)).2
  obtain ⟨hLow, -⟩ := (settledBounds.excludes_eq_false_iff hSome).1 (excludes_twelvePlaces h)
  have hExpansion : tenPow 1062 ≤ expansion (twelvePlaces units) :=
    Nat.le_trans tenPow_le_expansion_below (Nat.mul_le_mul_right unitExpansion hLow)
  exact Decimal.le_power_shortest hFormat hSome (readsBack_twelvePlaces units)
    (lt_of_tenPow_lt (Nat.lt_of_le_of_lt hExpansion (lt_tenPow_digitCount _)))

theorem isPlain_plainNumeral (negative : Bool) (h : settledBounds.excludes units = false) :
    (plainNumeral negative (twelvePlaces units)).IsPlain := by
  rw [plainNumeral]
  split
  · exact ⟨by decide, .inl rfl, by decide, by decide, rfl⟩
  · rename_i hSome
    exact isPlain_numeral (le_power_twelvePlaces h hSome) negative

/-- A settled text is a numeral in one of the two notations. -/
theorem exists_numeral_settledText (negative : Bool) (hUnits : Representable units) :
    ∃ n : Numeral, settledText (.finite negative units hUnits) = n.text ∧
      (settledBounds.excludes units = true ∧ n.IsScientific ∧
          signed negative (scientific units) = n.text ∨
        settledBounds.excludes units = false ∧ n.IsPlain ∧
          n = plainNumeral negative (twelvePlaces units)) := by
  rw [settledText_finite, Bounds.text]
  cases hExcluded : settledBounds.excludes units with
  | true =>
      obtain ⟨n, hScientific, hText⟩ :=
        isWide_settledBounds.exists_isScientific hExcluded negative
      rw [if_pos rfl]
      exact ⟨n, hText, .inl ⟨rfl, hScientific, hText⟩⟩
  | false =>
      rw [if_neg Bool.false_ne_true]
      exact ⟨_, plainText_eq negative _, .inr ⟨rfl, isPlain_plainNumeral negative hExcluded, rfl⟩⟩

theorem excludes_settledBounds_iff (h : twoPow (lastPlace units) ∣ units) :
    settledBounds.excludes units = true ↔
      tenPow 15 * one < units ∨ 0 < units ∧ units * tenPow 10 < one := by
  rw [← lt_nearest_iff (tenPow_pos 10) one_le_nearest_mul h]
  simp only [Bounds.excludes, Bool.or_eq_true, Bool.and_eq_true, decide_eq_true_eq, bne_iff_ne,
    Nat.pos_iff_ne_zero]
  exact Iff.rfl

end Settled

/-- A negative zero is never shown. -/
theorem plainText_ne_negative_zero (negative : Bool) {units : Nat}
    (h : twoPow (lastPlace units) ∣ units) : plainText negative units ≠ "-0".toList := by
  intro hText
  obtain ⟨negative', hRead, -⟩ := exists_leading?_plainText negative h
  have hZero : leading? "-0".toList = some (ofUnits true 0) := by decide +kernel
  rw [hText, hZero] at hRead
  have hUnits := units_eq_of_ofUnits_eq representable_zero (Option.some.inj hRead)
  rw [← hUnits, plainText_zero] at hText
  exact absurd hText (by decide)

/-- The shape of a settled text. It is scientific notation exactly where the magnitude is
above `10 ^ 15`, or below `10 ^ -10` and not zero, and all digits elsewhere. In the second
case the whole part has all digits of the decimal that is shown, and the text is read as
the number rounded to twelve places. It is not the error text, zero has no sign, and no
point stands at the end. -/
theorem settledText_shape (negative : Bool) {units : Nat} (hUnits : Representable units) :
    ∃ n : Numeral, settledText (.finite negative units hUnits) = n.text ∧
      (n.IsScientific ↔ tenPow 15 * one < units ∨ 0 < units ∧ units * tenPow 10 < one) ∧
      (n.IsPlain ↔ ¬ (tenPow 15 * one < units ∨ 0 < units ∧ units * tenPow 10 < one)) ∧
      (n.IsPlain →
        n.whole = Nat.toDigits 10 (shownExpansion (twelvePlaces units) / tenPow 1074) ∧
        leading? n.text = some (ofUnits n.negative (twelvePlaces units))) ∧
      n.text ≠ errorText ∧ n.text ≠ "-0".toList ∧ n.text.getLast? ≠ some '.' := by
  have hError := @settledText_ne_errorText (.finite negative units hUnits) rfl
  obtain ⟨n, hText, hNotation⟩ := exists_numeral_settledText negative hUnits
  rw [hText] at hError
  rw [← excludes_settledBounds_iff hUnits.2]
  refine ⟨n, hText, ?_⟩
  rcases hNotation with ⟨hExcluded, hScientific, hSame⟩ | ⟨hWithin, hPlain, hNumeral⟩
  · have hZero : n.text ≠ "-0".toList := by
      intro hZero
      have hLetter := letter_mem_scientific negative units
      rw [hSame, hZero] at hLetter
      exact absurd hLetter (by decide)
    exact ⟨iff_of_true hScientific hExcluded,
      iff_of_false hScientific.not_isPlain fun hNot => hNot hExcluded,
      fun hPlain => absurd hPlain hScientific.not_isPlain, hError, hZero,
      Numeral.getLast?_text_ne_point hScientific.isAscii hScientific.whole_ne_nil⟩
  · have hFormat := (representable_twelvePlaces (settlesScientific_eq units ▸ hWithin)).2
    have hZero := plainText_ne_negative_zero negative hFormat
    have hNotation : ¬ settledBounds.excludes units = true := Bool.eq_false_iff.1 hWithin
    rw [plainText_eq, ← hNumeral] at hZero
    have hShown : n.whole = Nat.toDigits 10 (shownExpansion (twelvePlaces units) / tenPow 1074) ∧
        leading? n.text = some (ofUnits n.negative (twelvePlaces units)) := by
      rw [hNumeral]
      exact ⟨whole_plainNumeral negative _, leading?_plainNumeral negative hFormat⟩
    exact ⟨iff_of_false (fun hScientific => hScientific.not_isPlain hPlain) hNotation,
      iff_of_true hPlain hNotation, fun _ => hShown, hError, hZero,
      Numeral.getLast?_text_ne_point hPlain.isAscii hPlain.whole_ne_nil⟩

/-- `-2.25` has all its digits. -/
theorem settledText_shape_quarters :
    ∃ n : Numeral,
      settledText (.finite true (9 * twoPow 1072) representable_quarters) = n.text ∧
        n.IsPlain ∧ ¬ n.IsScientific ∧ n.whole = ['2'] ∧ n.text ≠ errorText ∧
        n.text ≠ "-0".toList ∧ n.text.getLast? ≠ some '.' := by
  obtain ⟨n, hText, hScientific, hPlain, hShown, hEnds⟩ :=
    settledText_shape true representable_quarters
  have hWithin : ¬ (tenPow 15 * one < 9 * twoPow 1072 ∨
      0 < 9 * twoPow 1072 ∧ 9 * twoPow 1072 * tenPow 10 < one) := by decide +kernel
  have hWhole := (hShown (hPlain.2 hWithin)).1
  have hTwo : Nat.toDigits 10 (shownExpansion (twelvePlaces (9 * twoPow 1072)) / tenPow 1074) =
      ['2'] := by decide +kernel
  exact ⟨n, hText, hPlain.2 hWithin, fun h => hWithin (hScientific.1 h), hWhole.trans hTwo, hEnds⟩

end KeypadCalculator
