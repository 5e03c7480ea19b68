import KeypadCalculator.Proofs.Binary64.Numeral

/-!
Decimal texts read again. Positional digits come back as the number nearest to
their decimal, which for the shortest digits is the magnitude itself, and the
seven digits of scientific notation come back as the number nearest to them.
-/

namespace KeypadCalculator.Binary64

open Text Numeral

/-- The digits behind the point, without the zeros at their end. -/
def fractionDigits (places fraction : Nat) : List Char :=
  (((Nat.toDigits 10 fraction).leftpad places '0').reverse.dropWhile (· == '0')).reverse

theorem fractionText_eq (places fraction : Nat) :
    Decimal.fractionText places fraction = pointed (fractionDigits places fraction) :=
  rfl

theorem all_isAsciiDigit_fractionDigits (places fraction : Nat) :
    (fractionDigits places fraction).all isAsciiDigit = true := by
  have hPadded := all_isAsciiDigit_leftpad places (all_isAsciiDigit_toDigits fraction)
  rw [← stripped_append_zeros ((Nat.toDigits 10 fraction).leftpad places '0'),
    List.all_append, Bool.and_eq_true] at hPadded
  exact hPadded.1

/-- Digits behind the point count as many places as there are, whatever zeros
were left off. -/
theorem digitsValue_fractionDigits {places fraction : Nat} (hPlaces : 0 < places)
    (h : fraction < tenPow places) :
    (fractionDigits places fraction).length ≤ places ∧
      digitsValue (fractionDigits places fraction) *
        tenPow (places - (fractionDigits places fraction).length) = fraction := by
  have hZeros := stripped_append_zeros ((Nat.toDigits 10 fraction).leftpad places '0')
  rw [← fractionDigits] at hZeros
  generalize (List.takeWhile (· == '0')
    ((Nat.toDigits 10 fraction).leftpad places '0').reverse).length = zeros at hZeros
  have hLength := congrArg List.length hZeros
  rw [List.length_append, List.length_replicate, length_leftpad_toDigits hPlaces h] at hLength
  have hValue := congrArg digitsValue hZeros
  rw [digitsValue_append, digitsValue_zeros, digitsValue_leftpad, digitsValue_toDigits,
    List.length_replicate, Nat.add_zero, Nat.mul_comm] at hValue
  refine ⟨by omega, ?_⟩
  rw [show places - (fractionDigits places fraction).length = zeros by omega]
  exact hValue

namespace Decimal

/-- The numeral that the positional digits of a decimal are. -/
def numeral (d : Decimal) (negative : Bool) : Numeral :=
  if 1074 ≤ d.power then
    ⟨negative, Nat.toDigits 10 (d.coefficient * tenPow (d.power - 1074)), [], false, []⟩
  else
    ⟨negative, Nat.toDigits 10 (d.coefficient / tenPow (1074 - d.power)),
      fractionDigits (1074 - d.power) (d.coefficient % tenPow (1074 - d.power)), false, []⟩

theorem signed_positional (d : Decimal) (negative : Bool) :
    signed negative d.positional = (d.numeral negative).text := by
  rw [positional, numeral]
  split
  · simp [Numeral.text, pointed, powerText]
  · simp [Numeral.text, fractionText_eq, powerText]

theorem whole_numeral_ne_nil (d : Decimal) (negative : Bool) :
    (d.numeral negative).whole ≠ [] := by
  rw [numeral]
  split <;> exact Nat.toDigits_ne_nil

theorem isAscii_numeral (d : Decimal) (negative : Bool) :
    (d.numeral negative).isAscii = true := by
  rw [numeral]
  split <;> simp [isAscii, all_isAsciiDigit_toDigits, all_isAsciiDigit_fractionDigits]

/-- The numeral stands for the decimal: where zeros were left off, its last digit
counts a greater power of ten. -/
theorem exists_exponent_numeral (d : Decimal) (negative : Bool) :
    ∃ power : Nat, (d.numeral negative).exponent = (power : Int) - 1074 ∧
      (d.numeral negative).coefficient * tenPow power = d.coefficient * tenPow d.power := by
  rw [numeral]
  split
  · rename_i hWhole
    refine ⟨1074, by simp [Numeral.exponent, digitsValue], ?_⟩
    simp only [Numeral.coefficient, List.append_nil, digitsValue_toDigits]
    rw [Nat.mul_assoc, ← tenPow_add, Nat.sub_add_cancel hWhole]
  · rename_i hFraction
    generalize hPlaces : 1074 - d.power = places
    obtain ⟨hLength, hValue⟩ := digitsValue_fractionDigits (by omega)
      (Nat.mod_lt d.coefficient (tenPow_pos places))
    generalize hDigits : fractionDigits places (d.coefficient % tenPow places) = digits
      at hLength hValue ⊢
    refine ⟨1074 - digits.length, ?_, ?_⟩
    · have hNone : digitsValue [] = 0 := rfl
      simp only [Numeral.exponent, Bool.false_eq_true, if_false, hNone]
      omega
    · have hPower : 1074 - digits.length = (places - digits.length) + d.power := by omega
      have hSplit : tenPow digits.length * tenPow (places - digits.length) = tenPow places := by
        rw [← tenPow_add, Nat.add_sub_cancel' hLength]
      simp only [Numeral.coefficient, digitsValue_append, digitsValue_toDigits]
      rw [hPower, tenPow_add, ← Nat.mul_assoc, Nat.add_mul, hValue, Nat.mul_right_comm, hSplit,
        Nat.div_add_mod]

theorem negative_numeral (d : Decimal) (negative : Bool) :
    (d.numeral negative).negative = negative := by
  rw [numeral]
  split <;> rfl

/-- Positional digits are read as the number nearest to their decimal. -/
theorem leading?_positional (d : Decimal) (negative : Bool) :
    leading? (signed negative d.positional) =
      some (ofQuotient negative (d.coefficient * tenPow d.power) unitExpansion) := by
  obtain ⟨power, hPower, hValue⟩ := d.exists_exponent_numeral negative
  have hPositive : (d.numeral negative).negativePower = false := by
    rw [numeral]
    split <;> rfl
  rw [signed_positional, leading?_text (d.isAscii_numeral negative)
    (d.whole_numeral_ne_nil negative) (fun _ => hPositive) hPower, hValue, d.negative_numeral]

theorem readsBack_of_ofPower {units power : Nat} {d : Decimal}
    (h : ofPower units power = some d) : d.ReadsBack units := by
  simp only [ofPower] at h
  split at h
  · rename_i hBelow
    split at h
    · rename_i hAbove
      cases h
      exact hAbove.1
    · cases h
      exact hBelow
  · split at h
    · rename_i hAbove
      cases h
      exact hAbove
    · cases h

theorem readsBack_shortest {units : Nat} (h : twoPow (lastPlace units) ∣ units) :
    (shortest units).ReadsBack units := by
  rw [shortest]
  cases hFound : (List.range' 1 17).findSome?
      fun count => ofPower units (digitCount (expansion units) - count) with
  | none =>
      show nearest (expansion units * 1) unitExpansion = units
      rw [Nat.mul_one]
      exact nearest_of_dvd unitExpansion_pos h
  | some d =>
      obtain ⟨count, -, hPower⟩ := List.exists_of_findSome?_eq_some hFound
      exact readsBack_of_ofPower hPower

/-- The shortest digits of a magnitude are read as that magnitude. -/
theorem leading?_shortest {units : Nat} (negative : Bool)
    (h : twoPow (lastPlace units) ∣ units) :
    leading? (signed negative (shortest units).positional) = some (ofUnits negative units) := by
  rw [leading?_positional, ofQuotient, readsBack_shortest h]

end Decimal

theorem lt_tenPow_digitCount (n : Nat) : n < tenPow (digitCount n) :=
  (Nat.length_toDigits_le_iff (by decide) Nat.length_toDigits_pos).1 (Nat.le_refl _)

theorem digitCount_le {n count : Nat} (hCount : 0 < count) (h : n < tenPow count) :
    digitCount n ≤ count :=
  (Nat.length_toDigits_le_iff (by decide) hCount).2 h

/-- Every magnitude but zero has more than seven digits in its expansion. -/
theorem seven_lt_digitCount {units : Nat} (h : units ≠ 0) : 7 < digitCount (expansion units) := by
  refine Nat.lt_of_not_le fun hFew => ?_
  have hSmall : expansion units < tenPow 7 :=
    (Nat.length_toDigits_le_iff (by decide) (by decide)).1 hFew
  have hGreat : tenPow 7 ≤ expansion units :=
    calc tenPow 7 ≤ unitExpansion := tenPow_le_unitExpansion
      _ = 1 * unitExpansion := (Nat.one_mul unitExpansion).symm
      _ ≤ units * unitExpansion := Nat.mul_le_mul_right _ (Nat.one_le_iff_ne_zero.mpr h)
  omega

/-- A magnitude in scientific notation, in the places in which expansions are
counted. -/
def scientificExpansion (units : Nat) : Nat :=
  let place := tenPow (digitCount (expansion units) - 7)
  roundHalfEven (expansion units) place * place

theorem exists_exponent_sevenDigits {units : Nat} (h : units ≠ 0) :
    ∃ power : Nat, (sevenDigits units).2 - 6 = (power : Int) - 1074 ∧
      (sevenDigits units).1 * tenPow power = scientificExpansion units := by
  have hCount := seven_lt_digitCount h
  simp only [sevenDigits, scientificExpansion]
  generalize digitCount (expansion units) = count at hCount ⊢
  split
  · rename_i hEight
    refine ⟨count - 6, by dsimp only; omega, ?_⟩
    rw [hEight, show count - 6 = 1 + (count - 7) by omega, tenPow_add, ← Nat.mul_assoc]
    rfl
  · exact ⟨count - 7, by dsimp only; omega, rfl⟩

/-- The numeral that seven digits are, the first of which counts a power of ten. -/
def scientificNumeral (shown : Nat × Int) (negative : Bool) : Numeral :=
  ⟨negative, Nat.toDigits 10 (shown.1 / tenPow 6),
    (Nat.toDigits 10 (shown.1 % tenPow 6)).leftpad 6 '0', decide (shown.2 < 0),
    Nat.toDigits 10 shown.2.natAbs⟩

/-- Scientific notation of seven digits. -/
def scientificText (shown : Nat × Int) : List Char :=
  let (digits, power) := shown
  Nat.toDigits 10 (digits / tenPow 6) ++
    '.' :: (Nat.toDigits 10 (digits % tenPow 6)).leftpad 6 '0' ++ exponentText power

-- The equation of `scientific` itself makes the kernel evaluate `sevenDigits`.
theorem scientific_eq (units : Nat) : scientific units = scientificText (sevenDigits units) :=
  rfl

theorem signed_scientificText (shown : Nat × Int) (negative : Bool) :
    signed negative (scientificText shown) = (scientificNumeral shown negative).text := by
  obtain ⟨digits, power⟩ := shown
  have hFraction : (Nat.toDigits 10 (digits % tenPow 6)).leftpad 6 '0' ≠ [] := by
    rw [List.leftpad]
    exact List.append_ne_nil_of_right_ne_nil _ Nat.toDigits_ne_nil
  simp only [scientificText, scientificNumeral, Numeral.text, pointed, powerText, exponentText,
    List.isEmpty_iff, hFraction, Nat.toDigits_ne_nil, if_false, decide_eq_true_eq,
    List.cons_append, List.append_assoc]

theorem length_fraction_scientificNumeral (shown : Nat × Int) (negative : Bool) :
    (scientificNumeral shown negative).fraction.length = 6 :=
  length_leftpad_toDigits (by decide) (Nat.mod_lt _ (tenPow_pos 6))

theorem exponent_scientificNumeral (shown : Nat × Int) (negative : Bool) :
    (scientificNumeral shown negative).exponent = shown.2 - 6 := by
  rw [exponent, length_fraction_scientificNumeral]
  simp only [scientificNumeral, digitsValue_toDigits, decide_eq_true_eq]
  omega

theorem coefficient_scientificNumeral (shown : Nat × Int) (negative : Bool) :
    (scientificNumeral shown negative).coefficient = shown.1 := by
  rw [coefficient, digitsValue_append, length_fraction_scientificNumeral]
  simp only [scientificNumeral, digitsValue_leftpad, digitsValue_toDigits, Nat.div_add_mod]

theorem isAscii_scientificNumeral (shown : Nat × Int) (negative : Bool) :
    (scientificNumeral shown negative).isAscii = true := by
  simp only [isAscii, scientificNumeral, all_isAsciiDigit_toDigits,
    all_isAsciiDigit_leftpad 6 (all_isAsciiDigit_toDigits _), Bool.and_self]

/-- Scientific notation is read as the number nearest to its seven digits. -/
theorem leading?_scientific {units : Nat} (negative : Bool) (h : units ≠ 0) :
    leading? (signed negative (scientific units)) =
      some (ofQuotient negative (scientificExpansion units) unitExpansion) := by
  obtain ⟨power, hPower, hValue⟩ := exists_exponent_sevenDigits h
  rw [scientific_eq, signed_scientificText]
  generalize sevenDigits units = shown at hPower hValue ⊢
  have hWhole : (scientificNumeral shown negative).whole ≠ [] := Nat.toDigits_ne_nil
  have hDigits : (scientificNumeral shown negative).power ≠ [] := Nat.toDigits_ne_nil
  rw [leading?_text (isAscii_scientificNumeral shown negative) hWhole
    (fun hNone => absurd hNone hDigits)
    ((exponent_scientificNumeral shown negative).trans hPower),
    coefficient_scientificNumeral, hValue]
  rfl

/-- The greatest magnitude of the format. -/
def greatest : Nat := (twoPow 53 - 1) * twoPow 2045

theorem representable_greatest : Representable greatest :=
  representable_of_digits (by decide) (Nat.le_refl 2045)

theorem le_greatest {units : Nat} (h : Representable units) : units ≤ greatest := by
  obtain ⟨hBound, digits, hDigits⟩ := h
  rw [show 2098 = 53 + 2045 from rfl] at hBound
  have hPlace := lastPlace_le_of_lt hBound
  rcases Nat.eq_or_lt_of_le hPlace with hLast | hFiner
  · rw [hLast] at hDigits
    rw [twoPow_add, hDigits, Nat.mul_comm] at hBound
    have hFew : digits < twoPow 53 := Nat.lt_of_mul_lt_mul_right hBound
    rw [hDigits, greatest, Nat.mul_comm]
    exact Nat.mul_le_mul_right _ (by omega)
  · exact Nat.le_trans (Nat.le_of_lt (lt_of_lastPlace_lt hFiner))
      (Nat.mul_le_mul_right _ (by decide))

/-- Rounding to seven digits does not go beyond the greatest number. -/
theorem scientificExpansion_le {units : Nat} (h : Representable units) (hSome : units ≠ 0) :
    scientificExpansion units ≤ greatest * unitExpansion := by
  have hExact : expansion units ≤ greatest * unitExpansion :=
    Nat.mul_le_mul_right unitExpansion (le_greatest h)
  have hMost : digitCount (expansion units) ≤ 1383 :=
    digitCount_le (by decide) (Nat.lt_of_le_of_lt hExact (by decide +kernel))
  have hCount := seven_lt_digitCount hSome
  have hDigits := lt_tenPow_digitCount (expansion units)
  simp only [scientificExpansion]
  generalize digitCount (expansion units) = count at hMost hCount hDigits ⊢
  rcases Nat.eq_or_lt_of_le hMost with hFull | hFewer
  · have hHalf : 2 * expansion units < (2 * 1797693 + 1) * tenPow (count - 7) := by
      rw [hFull]
      exact Nat.lt_of_le_of_lt (Nat.mul_le_mul_left 2 hExact) (by decide +kernel)
    have hRound := roundHalfEven_le_of_half (tenPow_pos (count - 7)) hHalf
    refine Nat.le_trans (Nat.mul_le_mul_right _ hRound) ?_
    rw [hFull]
    decide +kernel
  · have hSplit : tenPow count = tenPow 7 * tenPow (count - 7) := by
      rw [← tenPow_add, show 7 + (count - 7) = count by omega]
    rw [hSplit] at hDigits
    have hRound := roundHalfEven_le (tenPow_pos (count - 7)) hDigits
    calc _ ≤ tenPow 7 * tenPow (count - 7) := Nat.mul_le_mul_right _ hRound
      _ = tenPow count := hSplit.symm
      _ ≤ tenPow 1382 := tenPow_mono (by omega)
      _ ≤ greatest * unitExpansion := by decide +kernel

end KeypadCalculator.Binary64
