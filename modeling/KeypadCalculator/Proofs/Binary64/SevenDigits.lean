import KeypadCalculator.Proofs.Binary64.Decimal
import KeypadCalculator.Proofs.Binary64.Distance

/-!
Scientific notation read again and shown again. The seven digits of a magnitude are
within half a place of it, and the number read from them is no farther away, so that
they are its seven digits as well, also where the power of ten changes.
-/

namespace KeypadCalculator.Binary64

theorem tenPow_succ (n : Nat) : tenPow (n + 1) = 10 * tenPow n :=
  (Nat.pow_succ ..).trans (Nat.mul_comm ..)

theorem lt_of_tenPow_lt {m n : Nat} (h : tenPow m < tenPow n) : m < n :=
  Nat.lt_of_not_le fun hLe => Nat.not_le_of_lt h (tenPow_mono hLe)

theorem tenPow_eq_mul_of_le {count : Nat} (h : 7 ≤ count) :
    tenPow count = tenPow 7 * tenPow (count - 7) := by
  rw [← tenPow_add, Nat.add_sub_cancel' h]

theorem tenPow_le_of_lt_digitCount {n k : Nat} (hPos : 0 < k) (h : k < digitCount n) :
    tenPow k ≤ n :=
  Nat.le_of_not_lt fun hLess => Nat.not_le_of_lt h (digitCount_le hPos hLess)

theorem digitCount_eq {n k : Nat} (hLow : tenPow k ≤ n) (hHigh : n < tenPow (k + 1)) :
    digitCount n = k + 1 := by
  refine Nat.le_antisymm (digitCount_le (Nat.succ_pos k) hHigh) (Nat.lt_of_not_le fun hFew => ?_)
  have hLess : n < tenPow k := Nat.lt_of_lt_of_le (lt_tenPow_digitCount n) (tenPow_mono hFew)
  omega

/-- The power of ten that the seventh digit of a magnitude counts. -/
def seventhPlace (units : Nat) : Nat :=
  tenPow (digitCount (expansion units) - 7)

/-- The seven leading digits, with one more where they are rounded up to a power of ten. -/
def leadingDigits (units : Nat) : Nat :=
  roundHalfEven (expansion units) (seventhPlace units)

theorem seventhPlace_pos (units : Nat) : 0 < seventhPlace units :=
  tenPow_pos _

theorem sevenDigits_eq (units : Nat) :
    sevenDigits units = if leadingDigits units = tenPow 7 then
        (tenPow 6, (digitCount (expansion units) : Int) - 1075 + 1)
      else (leadingDigits units, (digitCount (expansion units) : Int) - 1075) :=
  rfl

/-- What the seven digits stand for, in the places in which expansions are counted. -/
theorem scientificExpansion_eq (units : Nat) :
    scientificExpansion units = leadingDigits units * seventhPlace units :=
  rfl

section Bounds

variable {units : Nat}

theorem tenPow_eq_mul_seventhPlace (h : units ≠ 0) {count : Nat}
    (hCount : digitCount (expansion units) = count + 1) :
    tenPow count = tenPow 6 * seventhPlace units ∧
      tenPow (count + 1) = tenPow 7 * seventhPlace units := by
  have hSeven := seven_lt_digitCount h
  rw [seventhPlace, hCount, ← tenPow_add, ← tenPow_add]
  exact ⟨congrArg tenPow (by omega), congrArg tenPow (by omega)⟩

theorem leadingDigits_bounds (h : units ≠ 0) :
    tenPow 6 ≤ leadingDigits units ∧ leadingDigits units ≤ tenPow 7 := by
  have hSeven := seven_lt_digitCount h
  obtain ⟨count, hCount⟩ : ∃ count, digitCount (expansion units) = count + 1 :=
    Nat.exists_eq_add_one.mpr (by omega)
  obtain ⟨hSix, hAll⟩ := tenPow_eq_mul_seventhPlace h hCount
  have hLow : tenPow 6 * seventhPlace units ≤ expansion units :=
    hSix ▸ tenPow_le_of_lt_digitCount (by omega) (by omega)
  have hHigh : expansion units < tenPow 7 * seventhPlace units :=
    hAll ▸ hCount ▸ lt_tenPow_digitCount (expansion units)
  exact ⟨le_roundHalfEven (seventhPlace_pos units) hLow,
    roundHalfEven_le (seventhPlace_pos units) hHigh⟩

end Bounds

/-- The number that is read from the seven digits of a magnitude. -/
def sevenRead (units : Nat) : Nat :=
  nearest (scientificExpansion units) unitExpansion

/-- It is no farther from the seven digits than the magnitude itself. -/
theorem exists_gap_sevenRead {units : Nat} (h : twoPow (lastPlace units) ∣ units) :
    ∃ gap, (expansion units = scientificExpansion units + gap ∨
        expansion units + gap = scientificExpansion units) ∧
      scientificExpansion units ≤ expansion (sevenRead units) + gap ∧
      expansion (sevenRead units) ≤ scientificExpansion units + gap := by
  simp only [expansion, sevenRead]
  generalize scientificExpansion units = shown
  rcases Nat.le_total (units * unitExpansion) shown with hUp | hDown
  · have hNear := nearest_add_le h hUp
    have hLow := Nat.mul_le_mul_right unitExpansion (le_nearest unitExpansion_pos h hUp)
    exact ⟨shown - units * unitExpansion, .inr (by omega), by omega, by omega⟩
  · have hNear := le_nearest_add unitExpansion_pos h hDown
    have hHigh := Nat.mul_le_mul_right unitExpansion (nearest_le unitExpansion_pos h hDown)
    exact ⟨units * unitExpansion - shown, .inl (by omega), by omega, by omega⟩

theorem roundHalfEven_sevenRead {units : Nat} (h : twoPow (lastPlace units) ∣ units) :
    roundHalfEven (expansion (sevenRead units)) (seventhPlace units) = leadingDigits units := by
  obtain ⟨gap, hGap, hLow, hHigh⟩ := exists_gap_sevenRead h
  rw [scientificExpansion_eq] at hGap hLow hHigh
  exact (absorbs_of_add (seventhPlace_pos units) hGap).roundHalfEven_eq (seventhPlace_pos units)
    hLow hHigh

/-- Among the powers of ten with a unit as their place, only `10 ^ 757` has a unit between
one and ten times the place of its seventh digit, and it is rounded up. -/
theorem tenPow_le_nearest {count : Nat} (hLow : tenPow 6 * unitExpansion ≤ tenPow count)
    (hHigh : tenPow count < tenPow 7 * unitExpansion) :
    tenPow count ≤ nearest (tenPow count) unitExpansion * unitExpansion := by
  have hFew : tenPow 756 < tenPow 6 * unitExpansion := by decide +kernel
  have hMany : tenPow 7 * unitExpansion < tenPow 758 := by decide +kernel
  have hMore := lt_of_tenPow_lt (Nat.lt_of_lt_of_le hFew hLow)
  have hLess := lt_of_tenPow_lt (Nat.lt_trans hHigh hMany)
  obtain rfl : count = 757 := by omega
  decide +kernel

section Again

variable {units count : Nat}

/-- A number shown as a power of ten below it, and that read as a number still farther down,
is a unit above this one at least and half a place of its seventh digit above the power. -/
theorem tenPow_mul_unit_le (h : twoPow (lastPlace units) ∣ units) (hSome : units ≠ 0)
    (hCount : digitCount (expansion units) = count + 1)
    (hShown : scientificExpansion units = tenPow count)
    (hBelow : expansion (sevenRead units) < tenPow count) :
    tenPow 6 * unitExpansion ≤ tenPow count := by
  have hSeven := seven_lt_digitCount hSome
  have hUnits : tenPow count ≤ expansion units :=
    tenPow_le_of_lt_digitCount (by omega) (by omega)
  have hUp : expansion (sevenRead units) + unitExpansion ≤ expansion units := by
    have hLess : sevenRead units < units :=
      Nat.lt_of_mul_lt_mul_right (Nat.lt_of_lt_of_le hBelow hUnits)
    have hStep := Nat.mul_le_mul_right unitExpansion (Nat.succ_le_of_lt hLess)
    rwa [Nat.succ_mul] at hStep
  obtain ⟨gap, hGap, hLow, -⟩ := exists_gap_sevenRead h
  have hHalf := two_mul_le_roundHalfEven (expansion units) (seventhPlace_pos units)
  rw [← leadingDigits, ← scientificExpansion_eq] at hHalf
  have hSixth := (tenPow_eq_mul_seventhPlace hSome hCount).1
  rw [hSixth]
  refine Nat.mul_le_mul_left _ ?_
  omega

/-- A power of ten that is shown for a number above it is read as a number that is not more
than half a place of the eighth digit below it. -/
theorem two_mul_tenPow_le_sevenRead (h : twoPow (lastPlace units) ∣ units) (hSome : units ≠ 0)
    (hCount : digitCount (expansion units) = count + 1)
    (hShown : scientificExpansion units = tenPow count)
    (hBelow : expansion (sevenRead units) < tenPow count) :
    2 * tenPow count ≤ 2 * expansion (sevenRead units) + tenPow (count - 7) := by
  have hSeven := seven_lt_digitCount hSome
  have hSplit := tenPow_eq_mul_of_le (show 7 ≤ count by omega)
  have hRead : sevenRead units = nearest (tenPow count) unitExpansion := by
    rw [sevenRead, hShown]
  have hHalf := two_mul_le_nearest unitExpansion_pos (tenPow count)
  rw [← hRead] at hHalf
  -- It is enough that the binary place there is not above that of the eighth digit.
  suffices hPlace : tenPow 7 * (unitExpansion * place (tenPow count) unitExpansion) ≤
      tenPow count by
    have hFine := Nat.le_of_mul_le_mul_left (Nat.le_trans hPlace (Nat.le_of_eq hSplit))
      (tenPow_pos 7)
    rw [expansion]
    omega
  rcases Nat.eq_zero_or_pos (lastPlace (tenPow count / unitExpansion)) with hUnit | hPlaces
  · have hOne : place (tenPow count) unitExpansion = 1 := by rw [place, hUnit]
    rw [hOne, Nat.mul_one]
    refine Nat.le_of_not_lt fun hHigh => Nat.not_le_of_lt hBelow ?_
    rw [expansion, hRead]
    exact tenPow_le_nearest (tenPow_mul_unit_le h hSome hCount hShown hBelow) hHigh
  · calc tenPow 7 * (unitExpansion * place (tenPow count) unitExpansion)
        ≤ twoPow 52 * (unitExpansion * place (tenPow count) unitExpansion) :=
          Nat.mul_le_mul_right _ (by decide)
      _ = twoPow 52 * place (tenPow count) unitExpansion * unitExpansion := by
          rw [Nat.mul_assoc, Nat.mul_comm unitExpansion]
      _ ≤ tenPow count / unitExpansion * unitExpansion :=
          Nat.mul_le_mul_right _ (le_of_lastPlace_pos hPlaces)
      _ ≤ tenPow count := Nat.div_mul_le_self _ _

/-- What is read in the decade of the number itself has its digits. -/
theorem sevenDigits_sevenRead_of_decade (h : twoPow (lastPlace units) ∣ units)
    (hCount : digitCount (expansion (sevenRead units)) = digitCount (expansion units)) :
    sevenDigits (sevenRead units) = sevenDigits units := by
  have hPlace : seventhPlace (sevenRead units) = seventhPlace units := by
    rw [seventhPlace, hCount, seventhPlace]
  have hDigits : leadingDigits (sevenRead units) = leadingDigits units := by
    rw [leadingDigits, hPlace, roundHalfEven_sevenRead h]
  rw [sevenDigits_eq, sevenDigits_eq, hDigits, hCount]

/-- What is read above the decade is the power of ten that the digits are rounded up to. -/
theorem sevenDigits_sevenRead_of_above (h : twoPow (lastPlace units) ∣ units)
    (hSome : units ≠ 0) (hCount : digitCount (expansion units) = count + 1)
    (hAbove : tenPow (count + 1) ≤ expansion (sevenRead units)) :
    sevenDigits (sevenRead units) = sevenDigits units := by
  have hSeven := seven_lt_digitCount hSome
  obtain ⟨-, hMost⟩ := leadingDigits_bounds hSome
  have hPos := seventhPlace_pos units
  have hRound := roundHalfEven_sevenRead h
  have hHalf := two_mul_le_roundHalfEven (expansion (sevenRead units)) hPos
  have hAll := (tenPow_eq_mul_seventhPlace hSome hCount).2
  rw [hRound] at hHalf
  have hDigits : leadingDigits units = tenPow 7 :=
    Nat.le_antisymm hMost (hRound ▸ le_roundHalfEven hPos (hAll ▸ hAbove))
  have hSixValue : tenPow 6 = 1000000 := rfl
  have hSevenValue : tenPow 7 = 10000000 := rfl
  rw [hDigits, hSevenValue] at hHalf
  rw [hAll, hSevenValue] at hAbove
  have hCount' : digitCount (expansion (sevenRead units)) = count + 2 := by
    refine digitCount_eq (by rw [hAll, hSevenValue]; exact hAbove) ?_
    rw [tenPow_succ (count + 1), hAll, hSevenValue]
    omega
  have hPlace : seventhPlace (sevenRead units) = 10 * seventhPlace units := by
    rw [seventhPlace, seventhPlace, hCount, hCount', ← tenPow_succ]
    exact congrArg tenPow (by omega)
  have hDigits' : leadingDigits (sevenRead units) = tenPow 6 := by
    rw [leadingDigits, hPlace, hSixValue]
    exact Nat.le_antisymm (roundHalfEven_le_of_half (by omega) (by omega))
      (le_roundHalfEven (by omega) (by omega))
  rw [sevenDigits_eq, sevenDigits_eq, hDigits, hDigits', hCount, hCount', if_pos rfl,
    if_neg (by decide)]
  congr 1
  omega

/-- What is read below the decade was shown as the power of ten that the decade begins with,
and is rounded up to it again. -/
theorem sevenDigits_sevenRead_of_below (h : twoPow (lastPlace units) ∣ units)
    (hSome : units ≠ 0) (hCount : digitCount (expansion units) = count + 1)
    (hBelow : expansion (sevenRead units) < tenPow count) :
    sevenDigits (sevenRead units) = sevenDigits units := by
  have hSeven := seven_lt_digitCount hSome
  obtain ⟨hLeast, -⟩ := leadingDigits_bounds hSome
  have hPos := seventhPlace_pos units
  have hSixth := (tenPow_eq_mul_seventhPlace hSome hCount).1
  have hDigits : leadingDigits units = tenPow 6 :=
    Nat.le_antisymm (roundHalfEven_sevenRead h ▸ roundHalfEven_le hPos (hSixth ▸ hBelow)) hLeast
  have hShown : scientificExpansion units = tenPow count := by
    rw [scientificExpansion_eq, hDigits, hSixth]
  have hNear := two_mul_tenPow_le_sevenRead h hSome hCount hShown hBelow
  have hSplit := tenPow_eq_mul_of_le (show 7 ≤ count by omega)
  have hCount' : digitCount (expansion (sevenRead units)) = count := by
    obtain ⟨less, rfl⟩ : ∃ less, count = less + 1 := Nat.exists_eq_add_one.mpr (by omega)
    refine digitCount_eq ?_ hBelow
    have hLess := tenPow_mono (show less + 1 - 7 ≤ less by omega)
    rw [tenPow_succ] at hNear
    omega
  have hPlace : seventhPlace (sevenRead units) = tenPow (count - 7) := by
    rw [seventhPlace, hCount']
  have hDigits' : leadingDigits (sevenRead units) = tenPow 7 := by
    have hAbsorbs : Absorbs (tenPow (count - 7)) (tenPow 7)
        (tenPow count - expansion (sevenRead units)) := ⟨by omega, fun _ => by decide⟩
    rw [leadingDigits, hPlace]
    exact hAbsorbs.roundHalfEven_eq (tenPow_pos _) (by omega) (by omega)
  rw [sevenDigits_eq, sevenDigits_eq, hDigits, hDigits', hCount, hCount', if_pos rfl,
    if_neg (by decide)]
  congr 1
  omega

/-- Read again, the seven digits of a magnitude are seven digits of the number read. -/
theorem sevenDigits_sevenRead (h : twoPow (lastPlace units) ∣ units) (hSome : units ≠ 0) :
    sevenDigits (sevenRead units) = sevenDigits units := by
  have hSeven := seven_lt_digitCount hSome
  obtain ⟨count, hCount⟩ : ∃ count, digitCount (expansion units) = count + 1 :=
    Nat.exists_eq_add_one.mpr (by omega)
  rcases Nat.lt_or_ge (expansion (sevenRead units)) (tenPow count) with hBelow | hLow
  · exact sevenDigits_sevenRead_of_below h hSome hCount hBelow
  · rcases Nat.lt_or_ge (expansion (sevenRead units)) (tenPow (count + 1)) with hHigh | hAbove
    · exact sevenDigits_sevenRead_of_decade h
        ((digitCount_eq hLow hHigh).trans hCount.symm)
    · exact sevenDigits_sevenRead_of_above h hSome hCount hAbove

/-- Scientific notation that is read and written again is the same text. -/
theorem scientific_sevenRead (h : twoPow (lastPlace units) ∣ units) (hSome : units ≠ 0) :
    scientific (sevenRead units) = scientific units := by
  rw [scientific_eq, scientific_eq, sevenDigits_sevenRead h hSome]

theorem sevenRead_ne_zero (h : twoPow (lastPlace units) ∣ units) (hSome : units ≠ 0) :
    sevenRead units ≠ 0 := by
  intro hZero
  obtain ⟨hLeast, -⟩ := leadingDigits_bounds hSome
  have hRound := roundHalfEven_sevenRead h
  rw [hZero, expansion, Nat.zero_mul] at hRound
  have hNone : roundHalfEven 0 (seventhPlace units) ≤ 0 :=
    roundHalfEven_le_of_le (seventhPlace_pos units) (Nat.zero_le _)
  have hPos := tenPow_pos 6
  omega

end Again

theorem representable_sevenRead {units : Nat} (h : Representable units) (hSome : units ≠ 0) :
    Representable (sevenRead units) := by
  refine representable_nearest unitExpansion_pos ?_
  exact Nat.lt_of_le_of_lt (nearest_le unitExpansion_pos representable_greatest.2
    (scientificExpansion_le h hSome)) representable_greatest.1

theorem digitCount_mono {m n : Nat} (h : m ≤ n) : digitCount m ≤ digitCount n :=
  digitCount_le Nat.length_toDigits_pos (Nat.lt_of_le_of_lt h (lt_tenPow_digitCount n))

/-- Seven digits keep the order: between magnitudes with different numbers of digits there
is a power of ten. -/
theorem scientificExpansion_mono {units units' : Nat} (hSome : units ≠ 0)
    (h : units ≤ units') : scientificExpansion units ≤ scientificExpansion units' := by
  have hSome' : units' ≠ 0 := by omega
  have hExpansion : expansion units ≤ expansion units' := Nat.mul_le_mul_right _ h
  rw [scientificExpansion_eq, scientificExpansion_eq]
  rcases Nat.eq_or_lt_of_le (digitCount_mono hExpansion) with hSame | hLess
  · have hPlace : seventhPlace units = seventhPlace units' := by
      rw [seventhPlace, hSame, seventhPlace]
    rw [leadingDigits, leadingDigits, hPlace]
    exact Nat.mul_le_mul_right _ (roundHalfEven_mono hExpansion)
  · have hSeven := seven_lt_digitCount hSome
    obtain ⟨-, hMost⟩ := leadingDigits_bounds hSome
    obtain ⟨hLeast, -⟩ := leadingDigits_bounds hSome'
    calc leadingDigits units * seventhPlace units
        ≤ tenPow 7 * seventhPlace units := Nat.mul_le_mul_right _ hMost
      _ = tenPow (digitCount (expansion units)) := by
          rw [seventhPlace, ← tenPow_add]
          exact congrArg tenPow (by omega)
      _ ≤ tenPow (6 + (digitCount (expansion units') - 7)) := tenPow_mono (by omega)
      _ = tenPow 6 * seventhPlace units' := tenPow_add ..
      _ ≤ leadingDigits units' * seventhPlace units' := Nat.mul_le_mul_right _ hLeast

theorem sevenRead_mono {units units' : Nat} (hSome : units ≠ 0) (h : units ≤ units') :
    sevenRead units ≤ sevenRead units' :=
  nearest_mono unitExpansion_pos (scientificExpansion_mono hSome h)

end KeypadCalculator.Binary64
