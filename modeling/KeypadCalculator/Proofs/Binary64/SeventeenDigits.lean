import KeypadCalculator.Proofs.Binary64.SevenDigits

/-!
The search for the shortest digits. Magnitudes of the format are not nearer to each other
than one part in `2 ^ 53`, and seventeen digits are nearer to the magnitude than that, so
that the search ends with them at the latest. It does not go below the last place of any
decimal that is read as the magnitude.
-/

namespace KeypadCalculator.Binary64

theorem add_le_of_dvd {k a b : Nat} (ha : k ∣ a) (hb : k ∣ b) (h : a < b) : a + k ≤ b := by
  have hStep : k ≤ b - a := Nat.le_of_dvd (Nat.sub_pos_of_lt h) (Nat.dvd_sub hb ha)
  omega

/-- The first magnitude of a place is as far as the finer place reaches. -/
theorem first_succ (n : Nat) : twoPow 52 * twoPow (n + 1) = twoPow 53 * twoPow n := by
  have hTwice : twoPow 52 * 2 = twoPow 53 := by decide
  rw [twoPow_succ n, ← Nat.mul_assoc, hTwice]

theorem lt_mul_place (units : Nat) : units < twoPow 53 * twoPow (lastPlace units) :=
  first_succ (lastPlace units) ▸ lt_of_lastPlace_lt (Nat.lt_succ_self _)

/-- Below the first magnitude of a coarser place there is one place less to go. -/
theorem add_twoPow_le {units n : Nat} (h : twoPow (lastPlace units) ∣ units)
    (hPlace : lastPlace units ≤ n) (hLess : units < twoPow 53 * twoPow n) :
    units + twoPow n ≤ twoPow 53 * twoPow n := by
  rcases Nat.eq_or_lt_of_le hPlace with hSame | hFiner
  · rw [hSame] at h
    exact add_le_of_dvd h (Nat.dvd_mul_left _ _) hLess
  · have hBelow := lt_of_lastPlace_lt hFiner
    have hFew : twoPow 52 + 1 ≤ twoPow 53 := by decide
    have hMul := Nat.mul_le_mul_right (twoPow n) hFew
    rw [Nat.add_mul, Nat.one_mul] at hMul
    omega

/-- Two magnitudes of the format are not nearer to each other than one part in `2 ^ 53` of
the greater one. -/
theorem mul_add_le_of_lt {a b : Nat} (ha : twoPow (lastPlace a) ∣ a)
    (hb : twoPow (lastPlace b) ∣ b) (h : a < b) : twoPow 53 * a + b ≤ twoPow 53 * b := by
  have hValue : twoPow 53 = 9007199254740992 := rfl
  rcases Nat.eq_or_lt_of_le (lastPlace_mono (Nat.le_of_lt h)) with hSame | hFiner
  · rw [hSame] at ha
    have hStep := add_le_of_dvd ha hb h
    have hPlace := lt_mul_place b
    rw [hValue] at hPlace ⊢
    omega
  · obtain ⟨n, hPlace⟩ : ∃ n, lastPlace b = n + 1 := Nat.exists_eq_add_one.mpr (by omega)
    have hFirst := le_of_lastPlace_pos (show 0 < lastPlace b by omega)
    have hBelow := lt_of_lastPlace_lt hFiner
    rw [hPlace, first_succ] at hFirst hBelow
    have hStep := add_twoPow_le ha (by omega) hBelow
    rw [hValue] at hFirst hStep ⊢
    omega

/-- A quotient that is nearer to a magnitude than any other one of the format is rounded to
it. -/
theorem nearest_eq_of_near {units num den gap : Nat} (hDen : 0 < den)
    (h : twoPow (lastPlace units) ∣ units) (hUp : 2 * num ≤ 2 * (units * den) + gap)
    (hDown : 2 * (units * den) ≤ 2 * num + gap) (hGap : twoPow 53 * gap < units * den) :
    nearest num den = units := by
  have hValue : twoPow 53 = 9007199254740992 := rfl
  have hFormat := twoPow_lastPlace_dvd_nearest num hDen
  have hScale {a b : Nat} (hMul : twoPow 53 * a + b ≤ twoPow 53 * b) :
      twoPow 53 * (a * den) + b * den ≤ twoPow 53 * (b * den) := by
    have hDenMul := Nat.mul_le_mul_right den hMul
    rwa [Nat.add_mul, Nat.mul_assoc, Nat.mul_assoc] at hDenMul
  rw [hValue] at hGap hScale
  rcases Nat.le_total (units * den) num with hAbove | hBelow
  · have hNear := nearest_add_le h hAbove
    refine Nat.le_antisymm (Nat.le_of_not_lt fun hMore => ?_) (le_nearest hDen h hAbove)
    have hFar := hScale (mul_add_le_of_lt h hFormat hMore)
    omega
  · have hNear := le_nearest_add hDen h hBelow
    refine Nat.le_antisymm (nearest_le hDen h hBelow) (Nat.le_of_not_lt fun hLess => ?_)
    have hFar := hScale (mul_add_le_of_lt hFormat h hLess)
    omega

namespace Decimal

variable {units : Nat}

/-- If any decimal of a power reads back, one of the two next to the magnitude does. -/
theorem readsBack_next {power multiple : Nat} (h : twoPow (lastPlace units) ∣ units)
    (hReads : ReadsBack units ⟨multiple, power⟩) :
    ReadsBack units ⟨expansion units / tenPow power, power⟩ ∨
      ReadsBack units ⟨expansion units / tenPow power + 1, power⟩ := by
  have hExact : nearest (expansion units) unitExpansion = units :=
    nearest_of_dvd unitExpansion_pos h
  have hPos := tenPow_pos power
  simp only [ReadsBack] at hReads ⊢
  -- In both cases the decimal next to the magnitude is between it and the one that reads back.
  rcases Nat.lt_or_ge (expansion units) (multiple * tenPow power) with hAbove | hBelow
  · have hMultiple := Nat.mul_le_mul_right (tenPow power)
      (Nat.succ_le_of_lt ((Nat.div_lt_iff_lt_mul hPos).2 hAbove))
    have hNext : expansion units ≤ (expansion units / tenPow power + 1) * tenPow power :=
      Nat.le_of_lt (Nat.lt_mul_of_div_lt (Nat.lt_succ_self _) hPos)
    have hLow := nearest_mono unitExpansion_pos hNext
    have hHigh := nearest_mono unitExpansion_pos hMultiple
    rw [hReads] at hHigh
    rw [hExact] at hLow
    exact .inr (Nat.le_antisymm hHigh hLow)
  · have hMultiple := Nat.mul_le_mul_right (tenPow power) ((Nat.le_div_iff_mul_le hPos).2 hBelow)
    have hLow := nearest_mono unitExpansion_pos hMultiple
    have hHigh := nearest_mono unitExpansion_pos
      (Nat.div_mul_le_self (expansion units) (tenPow power))
    rw [hReads] at hLow
    rw [hExact] at hHigh
    exact .inl (Nat.le_antisymm hHigh hLow)

theorem exists_ofPower {power multiple : Nat} (h : twoPow (lastPlace units) ∣ units)
    (hReads : ReadsBack units ⟨multiple, power⟩) : ∃ d, ofPower units power = some d := by
  have hNext := readsBack_next h hReads
  simp only [ofPower]
  split
  · split
    · exact ⟨_, rfl⟩
    · exact ⟨_, rfl⟩
  · rename_i hBelow
    rw [if_pos (hNext.resolve_left hBelow)]
    exact ⟨_, rfl⟩

theorem power_of_ofPower {power : Nat} {d : Decimal} (h : ofPower units power = some d) :
    d.power = power := by
  simp only [ofPower] at h
  split at h
  · split at h
    · cases h
      rfl
    · cases h
      rfl
  · split at h
    · cases h
      rfl
    · cases h

theorem seventeen_lt_digitCount (hSome : units ≠ 0) : 17 < digitCount (expansion units) := by
  have hGreat : tenPow 17 ≤ unitExpansion := by decide +kernel
  have hUnit : unitExpansion ≤ expansion units :=
    Nat.le_mul_of_pos_left unitExpansion (Nat.pos_of_ne_zero hSome)
  exact lt_of_tenPow_lt (Nat.lt_of_le_of_lt (Nat.le_trans hGreat hUnit) (lt_tenPow_digitCount _))

/-- Seventeen digits of a magnitude are read as that magnitude. -/
theorem readsBack_seventeen (h : twoPow (lastPlace units) ∣ units) (hSome : units ≠ 0) :
    let power := digitCount (expansion units) - 17
    ReadsBack units ⟨roundHalfEven (expansion units) (tenPow power), power⟩ := by
  intro power
  have hCount := seventeen_lt_digitCount hSome
  have hPos := tenPow_pos power
  have hDigits : tenPow 16 * tenPow power ≤ expansion units := by
    rw [← tenPow_add]
    exact tenPow_le_of_lt_digitCount (by omega) (by omega)
  have hFew : twoPow 53 * tenPow power < tenPow 16 * tenPow power :=
    Nat.mul_lt_mul_of_pos_right (by decide) hPos
  exact nearest_eq_of_near unitExpansion_pos h (two_mul_roundHalfEven_le _ _)
    (two_mul_le_roundHalfEven _ hPos) (Nat.lt_of_lt_of_le hFew hDigits)

/-- A search finds something at the latest where there is something to be found. -/
theorem exists_findSome?_range' {α : Type} {f : Nat → Option α} {start steps target : Nat}
    (hMem : target ∈ List.range' start steps) (hTarget : ∃ x, f target = some x) :
    ∃ found ≤ target, ∃ x, f found = some x ∧ (List.range' start steps).findSome? f = some x := by
  induction steps generalizing start with
  | zero => exact absurd hMem List.not_mem_nil
  | succ steps ih =>
      rw [List.range'_succ] at hMem ⊢
      rw [List.findSome?_cons]
      cases hStart : f start with
      | some x =>
          have hLe : start ≤ target := by
            rcases List.mem_cons.1 hMem with rfl | hRest
            · exact Nat.le_refl _
            · have := List.mem_range'_1.1 hRest
              omega
          exact ⟨start, hLe, x, hStart, rfl⟩
      | none =>
          rcases List.mem_cons.1 hMem with rfl | hRest
          · obtain ⟨x, hSome⟩ := hTarget
            rw [hStart] at hSome
            cases hSome
          · exact ih hRest

/-- The shortest digits are not finer than any decimal that reads back, if that one begins
below the first digit of the magnitude. -/
theorem le_power_shortest {power multiple : Nat} (h : twoPow (lastPlace units) ∣ units)
    (hSome : units ≠ 0) (hReads : ReadsBack units ⟨multiple, power⟩)
    (hBelow : power < digitCount (expansion units)) : power ≤ (shortest units).power := by
  -- The search meets that decimal at its count of digits, or seventeen digits before it.
  obtain ⟨target, hMem, hPower, hTarget⟩ : ∃ target ∈ List.range' 1 17,
      power ≤ digitCount (expansion units) - target ∧
        ∃ d, ofPower units (digitCount (expansion units) - target) = some d := by
    rcases Nat.le_total (digitCount (expansion units) - power) 17 with hFew | hMany
    · refine ⟨_, List.mem_range'_1.2 ⟨Nat.sub_pos_of_lt hBelow, Nat.lt_succ_of_le hFew⟩, ?_⟩
      rw [Nat.sub_sub_self (Nat.le_of_lt hBelow)]
      exact ⟨Nat.le_refl _, exists_ofPower h hReads⟩
    · exact ⟨17, by decide, by omega, exists_ofPower h (readsBack_seventeen h hSome)⟩
  obtain ⟨found, hFound, d, hDecimal, hSearch⟩ := exists_findSome?_range'
    (f := fun count => ofPower units (digitCount (expansion units) - count)) hMem hTarget
  rw [shortest, hSearch, Option.getD_some, power_of_ofPower hDecimal]
  omega

end Decimal

end KeypadCalculator.Binary64
