import KeypadCalculator.Binary64.Rounding

/-!
What rounding to the nearest magnitude of the format keeps: the order beside
every magnitude of the format, those magnitudes themselves, and the quotient as
a number, whatever its numerator and denominator are.
-/

namespace KeypadCalculator.Binary64

theorem lastPlace_mono {a b : Nat} (h : a ≤ b) : lastPlace a ≤ lastPlace b := by
  rcases Nat.eq_zero_or_pos a with rfl | hPos
  · exact Nat.zero_le _
  · have hPower : 2 ^ a.log2 ≤ b := Nat.le_trans (Nat.log2_self_le (Nat.ne_of_gt hPos)) h
    exact Nat.sub_le_sub_right ((Nat.le_log2 (by omega)).2 hPower) 52

theorem roundHalfEven_le_of_le {num den bound : Nat} (hDen : 0 < den) (h : num ≤ bound * den) :
    roundHalfEven num den ≤ bound := by
  rcases Nat.eq_or_lt_of_le h with rfl | hLess
  · simp [roundHalfEven, Nat.mul_div_cancel _ hDen, hDen]
  · exact roundHalfEven_le hDen hLess

theorem le_roundHalfEven {num den bound : Nat} (hDen : 0 < den) (h : bound * den ≤ num) :
    bound ≤ roundHalfEven num den := by
  have hBelow : bound ≤ num / den := (Nat.le_div_iff_mul_le hDen).2 h
  simp only [roundHalfEven]
  split <;> omega

/-- Less than half a step is cut off. -/
theorem roundHalfEven_le_of_half {num den bound : Nat} (hDen : 0 < den)
    (h : 2 * num < (2 * bound + 1) * den) : roundHalfEven num den ≤ bound := by
  have hSplit := Nat.div_add_mod num den
  have hRest := Nat.mod_lt num hDen
  have hTwice : (2 * bound + 1) * den = 2 * (den * bound) + den := by
    rw [Nat.add_mul, Nat.mul_assoc, Nat.mul_comm bound, Nat.one_mul]
  rw [hTwice] at h
  simp only [roundHalfEven]
  generalize num / den = below at *
  have hBelow : below ≤ bound := by
    refine Nat.le_of_not_lt fun hAbove => ?_
    have hStep : den * (bound + 1) ≤ den * below := Nat.mul_le_mul_left den hAbove
    rw [Nat.mul_succ] at hStep
    omega
  split
  · exact hBelow
  · rcases Nat.eq_or_lt_of_le hBelow with rfl | hLess
    · omega
    · exact hLess

theorem roundHalfEven_mul_right (num den : Nat) {k : Nat} (hK : 0 < k) :
    roundHalfEven (num * k) (den * k) = roundHalfEven num den := by
  have hRest : 2 * (num % den * k) = 2 * (num % den) * k := (Nat.mul_assoc ..).symm
  have hLess : 2 * (num % den) * k < den * k ↔ 2 * (num % den) < den := Nat.mul_lt_mul_right hK
  have hHalf : 2 * (num % den) * k = den * k ↔ 2 * (num % den) = den :=
    Nat.mul_left_inj (Nat.ne_of_gt hK)
  simp only [roundHalfEven, Nat.mul_div_mul_right _ _ hK, Nat.mul_mod_mul_right, hRest, hLess,
    hHalf]

/-- Rounding does not pass a magnitude of the format upwards. -/
theorem nearest_le {num den bound : Nat} (hDen : 0 < den)
    (hBound : twoPow (lastPlace bound) ∣ bound) (h : num ≤ bound * den) :
    nearest num den ≤ bound := by
  have hPlace : lastPlace (num / den) ≤ lastPlace bound :=
    lastPlace_mono (Nat.div_le_of_le_mul (Nat.mul_comm bound den ▸ h))
  simp only [nearest]
  generalize lastPlace (num / den) = place at hPlace
  obtain ⟨digits, hDigits⟩ := Nat.dvd_trans (Nat.pow_dvd_pow 2 hPlace) hBound
  have hRound : roundHalfEven num (den * twoPow place) ≤ digits := by
    refine roundHalfEven_le_of_le (Nat.mul_pos hDen (Nat.two_pow_pos place)) ?_
    calc num ≤ bound * den := h
      _ = digits * (den * 2 ^ place) := by
        rw [hDigits, Nat.mul_comm, Nat.mul_comm digits, Nat.mul_assoc]
  calc roundHalfEven num (den * twoPow place) * twoPow place
      ≤ digits * twoPow place := Nat.mul_le_mul_right _ hRound
    _ = bound := (Nat.mul_comm ..).trans hDigits.symm

theorem twoPow_pos (n : Nat) : 0 < twoPow n :=
  Nat.two_pow_pos n

theorem twoPow_add (a b : Nat) : twoPow (a + b) = twoPow a * twoPow b :=
  Nat.pow_add 2 a b

theorem twoPow_mono {a b : Nat} (h : a ≤ b) : twoPow a ≤ twoPow b :=
  Nat.pow_le_pow_right (by decide) h

theorem one_units_pos : 0 < one := by
  unfold one
  exact twoPow_pos _

/-- A power of two has one digit, which is in the format. -/
theorem twoPow_lastPlace_dvd (n : Nat) : twoPow (lastPlace (twoPow n)) ∣ twoPow n := by
  have hPlace : lastPlace (twoPow n) ≤ n := by
    simp only [lastPlace, twoPow, Nat.pow_eq, Nat.log2_two_pow]
    exact Nat.sub_le n 52
  exact Nat.pow_dvd_pow 2 hPlace

/-- A magnitude with a finer last place has fewer than fifty-three digits at a
coarser one. -/
theorem lt_of_lastPlace_lt {units place : Nat} (h : lastPlace units < place) :
    units < twoPow 52 * twoPow place := by
  have hLog : units.log2 + 1 ≤ 52 + place := by
    rw [lastPlace] at h
    omega
  calc units < 2 ^ (units.log2 + 1) := Nat.lt_log2_self
    _ ≤ 2 ^ (52 + place) := Nat.pow_le_pow_right (by decide) hLog
    _ = 2 ^ 52 * 2 ^ place := Nat.pow_add ..

theorem le_of_lastPlace_pos {units : Nat} (h : 0 < lastPlace units) :
    twoPow 52 * twoPow (lastPlace units) ≤ units := by
  have hLog : units.log2 = 52 + lastPlace units := by
    rw [lastPlace] at h ⊢
    omega
  have hUnits : units ≠ 0 := by
    rintro rfl
    exact absurd h (by decide)
  calc 2 ^ 52 * 2 ^ lastPlace units = 2 ^ units.log2 := by rw [hLog, Nat.pow_add]
    _ ≤ units := Nat.log2_self_le hUnits

/-- Rounding does not pass a magnitude of the format downwards. -/
theorem le_nearest {num den bound : Nat} (hDen : 0 < den)
    (hBound : twoPow (lastPlace bound) ∣ bound) (h : bound * den ≤ num) :
    bound ≤ nearest num den := by
  have hWhole : bound ≤ num / den := (Nat.le_div_iff_mul_le hDen).2 h
  have hStep : 0 < den * twoPow (lastPlace (num / den)) :=
    Nat.mul_pos hDen (Nat.two_pow_pos _)
  simp only [nearest]
  rcases Nat.eq_or_lt_of_le (lastPlace_mono hWhole) with hSame | hCoarser
  · rw [← hSame] at hStep ⊢
    obtain ⟨digits, hDigits⟩ := hBound
    have hRound : digits ≤ roundHalfEven num (den * twoPow (lastPlace bound)) := by
      refine le_roundHalfEven hStep ?_
      calc digits * (den * twoPow (lastPlace bound))
          = twoPow (lastPlace bound) * digits * den := by
            rw [Nat.mul_comm den, ← Nat.mul_assoc, Nat.mul_comm digits]
        _ = bound * den := by rw [← hDigits]
        _ ≤ num := h
    calc bound = digits * twoPow (lastPlace bound) := hDigits.trans (Nat.mul_comm ..)
      _ ≤ _ := Nat.mul_le_mul_right _ hRound
  · -- All fifty-three digits of the quotient are used, and the bound has fewer.
    have hDigits := le_of_lastPlace_pos (Nat.lt_of_le_of_lt (Nat.zero_le _) hCoarser)
    have hRound : twoPow 52 ≤ roundHalfEven num (den * twoPow (lastPlace (num / den))) := by
      refine le_roundHalfEven hStep ?_
      calc twoPow 52 * (den * twoPow (lastPlace (num / den)))
          = twoPow 52 * twoPow (lastPlace (num / den)) * den := by
            rw [Nat.mul_comm den, Nat.mul_assoc]
        _ ≤ num / den * den := Nat.mul_le_mul_right den hDigits
        _ ≤ num := Nat.div_mul_le_self num den
    exact Nat.le_trans (Nat.le_of_lt (lt_of_lastPlace_lt hCoarser))
      (Nat.mul_le_mul_right _ hRound)

/-- A magnitude of the format is its own rounding. -/
theorem nearest_of_dvd {units den : Nat} (hDen : 0 < den)
    (h : twoPow (lastPlace units) ∣ units) : nearest (units * den) den = units :=
  Nat.le_antisymm (nearest_le hDen h (Nat.le_refl _)) (le_nearest hDen h (Nat.le_refl _))

theorem nearest_mul_right (num den : Nat) {k : Nat} (hK : 0 < k) :
    nearest (num * k) (den * k) = nearest num den := by
  simp only [nearest, Nat.mul_div_mul_right _ _ hK, Nat.mul_right_comm den k,
    roundHalfEven_mul_right _ _ hK]

/-- Only the quotient counts. -/
theorem nearest_eq_of_mul_eq {num den num' den' : Nat} (hDen : 0 < den) (hDen' : 0 < den')
    (h : num * den' = num' * den) : nearest num den = nearest num' den' := by
  rw [← nearest_mul_right num den hDen', ← nearest_mul_right num' den' hDen, h,
    Nat.mul_comm den den']

/-- No magnitude of the format is between a quotient and what it is rounded up to. -/
theorem lt_nearest_iff {num den units : Nat} (hDen : 0 < den) (hUp : num ≤ nearest num den * den)
    (h : twoPow (lastPlace units) ∣ units) : units < nearest num den ↔ units * den < num := by
  constructor
  · intro hLess
    exact Nat.lt_of_not_le fun hLe => Nat.not_le_of_lt hLess (nearest_le hDen h hLe)
  · intro hLess
    exact Nat.lt_of_mul_lt_mul_right (Nat.lt_of_lt_of_le hLess hUp)

/-- Below half a unit there is only zero. -/
theorem nearest_eq_zero {num den : Nat} (h : 2 * num < den) : nearest num den = 0 := by
  have hDen : 0 < den := by omega
  have hPlace : lastPlace (num / den) = 0 := by
    rw [Nat.div_eq_of_lt (by omega)]
    decide
  have hRound : roundHalfEven num (den * twoPow 0) ≤ 0 :=
    roundHalfEven_le_of_half (by simpa using hDen) (by simpa using h)
  simp only [nearest, hPlace, Nat.le_zero.mp hRound, Nat.zero_mul]

theorem representable_zero : Representable 0 :=
  ⟨twoPow_pos 2098, Nat.dvd_zero _⟩

theorem ofUnits_eq_finite {negative : Bool} {units : Nat} (h : Representable units) :
    ofUnits negative units = .finite negative units h := by
  rw [ofUnits, dif_pos h]

theorem log2_lt_of_lt_twoPow {units k : Nat} (hPos : 0 < units) (h : units < twoPow k) :
    units.log2 < k :=
  (Nat.log2_lt (Nat.ne_of_gt hPos)).2 h

theorem lastPlace_le_of_lt {units place : Nat} (h : units < twoPow (53 + place)) :
    lastPlace units ≤ place := by
  rcases Nat.eq_zero_or_pos units with rfl | hPos
  · exact Nat.zero_le place
  · have hLog := log2_lt_of_lt_twoPow hPos h
    rw [lastPlace]
    omega

section Digits

variable {digits : Nat} (hDigits : digits < twoPow 53)

include hDigits

theorem mul_twoPow_lt (place : Nat) : digits * twoPow place < twoPow (53 + place) := by
  rw [twoPow_add]
  exact Nat.mul_lt_mul_of_pos_right hDigits (twoPow_pos place)

theorem lastPlace_mul_twoPow_le (place : Nat) : lastPlace (digits * twoPow place) ≤ place :=
  lastPlace_le_of_lt (mul_twoPow_lt hDigits place)

/-- Up to fifty-three digits, the last of them at a place of the format. -/
theorem representable_of_digits {place : Nat} (hPlace : place ≤ 2045) :
    Representable (digits * twoPow place) := by
  have hBound : twoPow (53 + place) ≤ twoPow 2098 := twoPow_mono (by omega)
  have hLast : twoPow (lastPlace (digits * twoPow place)) ∣ twoPow place :=
    Nat.pow_dvd_pow 2 (lastPlace_mul_twoPow_le hDigits place)
  exact ⟨Nat.lt_of_lt_of_le (mul_twoPow_lt hDigits place) hBound,
    Nat.dvd_trans hLast (Nat.dvd_mul_left ..)⟩

end Digits

theorem isFinite_ofUnits {negative : Bool} {units : Nat} (h : Representable units) :
    (ofUnits negative units).isFinite = true := by
  rw [ofUnits, dif_pos h]
  rfl

/-- Up to the greatest magnitude of the format a rounded quotient is finite. -/
theorem isFinite_ofQuotient {negative : Bool} {num den bound : Nat} (hDen : 0 < den)
    (hBound : Representable bound) (h : num ≤ bound * den) :
    (ofQuotient negative num den).isFinite = true := by
  refine isFinite_ofUnits (representable_nearest hDen ?_)
  exact Nat.lt_of_le_of_lt (nearest_le hDen hBound.2 h) hBound.1

end KeypadCalculator.Binary64
