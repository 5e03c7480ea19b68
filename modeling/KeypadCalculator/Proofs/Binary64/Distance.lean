import KeypadCalculator.Proofs.Binary64.Nearest

/-!
How far rounding moves a quotient. No magnitude of the format is nearer to it than the
rounded one, rounding keeps the order, and what is as near to the rounded magnitude on
its other side is rounded to the same. So a quotient that was rounded, multiplied by
its divisor and divided by it again, with a rounding each time, is the same number.
-/

namespace KeypadCalculator.Binary64

section Whole

variable {num den : Nat}

/-- Rounding to a whole number moves by half a step at most. -/
theorem two_mul_le_roundHalfEven (num : Nat) {den : Nat} (hDen : 0 < den) :
    2 * num ≤ 2 * (roundHalfEven num den * den) + den := by
  have hSplit := Nat.div_add_mod num den
  have hRest := Nat.mod_lt num hDen
  rw [Nat.mul_comm] at hSplit
  simp only [roundHalfEven]
  split
  · omega
  · rw [Nat.add_mul]
    omega

theorem two_mul_roundHalfEven_le (num den : Nat) :
    2 * (roundHalfEven num den * den) ≤ 2 * num + den := by
  have hSplit := Nat.div_add_mod num den
  rw [Nat.mul_comm] at hSplit
  simp only [roundHalfEven]
  split
  · omega
  · rw [Nat.add_mul]
    omega

/-- So far away from a multiple of `den` everything is rounded to it. -/
structure Absorbs (den multiple gap : Nat) : Prop where
  half : 2 * gap ≤ den
  even : 2 * gap = den → multiple % 2 = 0

theorem absorbs_of_add (hDen : 0 < den) {gap : Nat}
    (h : num = roundHalfEven num den * den + gap ∨ num + gap = roundHalfEven num den * den) :
    Absorbs den (roundHalfEven num den) gap := by
  have hSplit := Nat.div_add_mod num den
  have hRest := Nat.mod_lt num hDen
  rw [Nat.mul_comm] at hSplit
  simp only [roundHalfEven] at h ⊢
  split at h
  · rename_i hBelow
    rw [if_pos hBelow]
    exact ⟨by omega, fun hHalf => by omega⟩
  · rename_i hAbove
    rw [if_neg hAbove]
    rw [Nat.add_mul] at h
    exact ⟨by omega, fun hHalf => by omega⟩

theorem roundHalfEven_add_mul {rest : Nat} (h : rest < den) (whole : Nat) :
    roundHalfEven (rest + whole * den) den =
      if 2 * rest < den ∨ (2 * rest = den ∧ whole % 2 = 0) then whole else whole + 1 := by
  have hDen : 0 < den := Nat.lt_of_le_of_lt (Nat.zero_le rest) h
  simp only [roundHalfEven, Nat.add_mul_div_right _ _ hDen, Nat.div_eq_of_lt h, Nat.zero_add,
    Nat.add_mul_mod_self_right, Nat.mod_eq_of_lt h]

theorem Absorbs.roundHalfEven_eq {multiple gap : Nat} (h : Absorbs den multiple gap)
    (hDen : 0 < den) (hLow : multiple * den ≤ num + gap) (hHigh : num ≤ multiple * den + gap) :
    roundHalfEven num den = multiple := by
  obtain ⟨hHalf, hEven⟩ := h
  rcases Nat.lt_or_ge num (multiple * den) with hBelow | hAbove
  · -- The multiple below is the whole part, and the rest of it is rounded up.
    cases multiple with
    | zero => omega
    | succ below =>
        rw [Nat.add_mul] at hLow hBelow
        obtain ⟨rest, rfl⟩ : ∃ rest, num = rest + below * den :=
          ⟨num - below * den, by omega⟩
        rw [roundHalfEven_add_mul (by omega), if_neg (by omega)]
  · obtain ⟨rest, rfl⟩ : ∃ rest, num = rest + multiple * den :=
      ⟨num - multiple * den, by omega⟩
    rw [roundHalfEven_add_mul (by omega), if_pos (by omega)]

/-- No multiple of `den` is nearer than the one that is rounded to. -/
theorem roundHalfEven_add_le {multiple : Nat} (h : multiple * den ≤ num) :
    roundHalfEven num den * den + multiple * den ≤ 2 * num := by
  have hRound := two_mul_roundHalfEven_le num den
  rcases Nat.lt_or_ge multiple (roundHalfEven num den) with hLess | hLe
  · have hStep := Nat.mul_le_mul_right den (Nat.succ_le_of_lt hLess)
    rw [Nat.succ_mul] at hStep
    omega
  · have hMultiple := Nat.mul_le_mul_right den hLe
    omega

theorem le_roundHalfEven_add {multiple : Nat} (hDen : 0 < den) (h : num ≤ multiple * den) :
    2 * num ≤ roundHalfEven num den * den + multiple * den := by
  have hRound := two_mul_le_roundHalfEven num hDen
  rcases Nat.lt_or_ge (roundHalfEven num den) multiple with hLess | hLe
  · have hStep := Nat.mul_le_mul_right den (Nat.succ_le_of_lt hLess)
    rw [Nat.succ_mul] at hStep
    omega
  · have hMultiple := Nat.mul_le_mul_right den hLe
    omega

theorem roundHalfEven_mono {num' : Nat} (h : num ≤ num') :
    roundHalfEven num den ≤ roundHalfEven num' den := by
  have hWhole : num / den ≤ num' / den := Nat.div_le_div_right h
  rcases Nat.eq_or_lt_of_le hWhole with hSame | hLess
  · have hSplit := Nat.div_add_mod num den
    have hSplit' := Nat.div_add_mod num' den
    simp only [roundHalfEven]
    rw [hSame] at hSplit ⊢
    split <;> split <;> omega
  · simp only [roundHalfEven]
    split <;> split <;> omega

end Whole

theorem twoPow_succ (n : Nat) : twoPow (n + 1) = 2 * twoPow n :=
  (Nat.pow_succ ..).trans (Nat.mul_comm ..)

section Nearest

variable {num den : Nat}

/-- The place that a quotient is rounded at. -/
def place (num den : Nat) : Nat :=
  twoPow (lastPlace (num / den))

theorem step_pos (hDen : 0 < den) (num : Nat) : 0 < den * place num den :=
  Nat.mul_pos hDen (twoPow_pos _)

theorem nearest_mul (num den : Nat) :
    nearest num den * den =
      roundHalfEven num (den * place num den) * (den * place num den) := by
  rw [nearest, Nat.mul_assoc, Nat.mul_comm (twoPow _) den]
  rfl

theorem two_mul_le_nearest (hDen : 0 < den) (num : Nat) :
    2 * num ≤ 2 * (nearest num den * den) + den * place num den := by
  rw [nearest_mul]
  exact two_mul_le_roundHalfEven num (step_pos hDen num)

theorem two_mul_nearest_le (num den : Nat) :
    2 * (nearest num den * den) ≤ 2 * num + den * place num den := by
  rw [nearest_mul]
  exact two_mul_roundHalfEven_le num (den * place num den)

/-- A magnitude of the format is a multiple of every place up to its own. -/
theorem exists_mul_place {bound : Nat} (hBound : twoPow (lastPlace bound) ∣ bound)
    (h : lastPlace (num / den) ≤ lastPlace bound) :
    ∃ multiple, bound * den = multiple * (den * place num den) := by
  obtain ⟨multiple, hMultiple⟩ := Nat.dvd_trans (Nat.pow_dvd_pow 2 h) hBound
  refine ⟨multiple, ?_⟩
  calc bound * den = 2 ^ lastPlace (num / den) * multiple * den := by rw [← hMultiple]
    _ = multiple * (den * 2 ^ lastPlace (num / den)) := by
      rw [Nat.mul_comm _ multiple, Nat.mul_assoc, Nat.mul_comm den]

/-- The least magnitude that uses all fifty-three digits at the place of a quotient. -/
def first (num den : Nat) : Nat :=
  twoPow (52 + lastPlace (num / den))

theorem first_eq_mul_place (num den : Nat) : first num den = twoPow 52 * place num den :=
  Nat.pow_add ..

theorem first_mul (num den : Nat) :
    first num den * den = twoPow 52 * (den * place num den) := by
  rw [first_eq_mul_place, Nat.mul_assoc, Nat.mul_comm (place num den)]

theorem lastPlace_first (num den : Nat) : lastPlace (first num den) = lastPlace (num / den) := by
  simp only [first, lastPlace, twoPow, Nat.pow_eq, Nat.log2_two_pow]
  omega

/-- Above the least place of all, all fifty-three digits are used. -/
theorem first_mul_le {bound : Nat} (h : lastPlace bound < lastPlace (num / den)) :
    bound < first num den ∧ first num den * den ≤ num := by
  rw [first_eq_mul_place]
  refine ⟨lt_of_lastPlace_lt h, ?_⟩
  calc twoPow 52 * place num den * den ≤ num / den * den :=
        Nat.mul_le_mul_right den
          (le_of_lastPlace_pos (Nat.lt_of_le_of_lt (Nat.zero_le _) h))
    _ ≤ num := Nat.div_mul_le_self num den

/-- No magnitude of the format below a quotient is nearer than the rounded one. -/
theorem nearest_add_le {bound : Nat} (hBound : twoPow (lastPlace bound) ∣ bound)
    (h : bound * den ≤ num) : nearest num den * den + bound * den ≤ 2 * num := by
  rcases Nat.lt_or_ge (lastPlace bound) (lastPlace (num / den)) with hFiner | hPlace
  · obtain ⟨hLess, hNum⟩ := first_mul_le hFiner
    have hBelow : bound * den ≤ first num den * den :=
      Nat.mul_le_mul_right den (Nat.le_of_lt hLess)
    rw [first_mul] at hNum hBelow
    have hFirst := roundHalfEven_add_le hNum
    rw [← nearest_mul] at hFirst
    omega
  · obtain ⟨multiple, hMultiple⟩ := exists_mul_place hBound hPlace
    rw [nearest_mul, hMultiple]
    exact roundHalfEven_add_le (hMultiple ▸ h)

/-- Nor is one above it. -/
theorem le_nearest_add {bound : Nat} (hDen : 0 < den)
    (hBound : twoPow (lastPlace bound) ∣ bound) (h : num ≤ bound * den) :
    2 * num ≤ nearest num den * den + bound * den := by
  have hPlace : lastPlace (num / den) ≤ lastPlace bound :=
    lastPlace_mono (Nat.div_le_of_le_mul (Nat.mul_comm bound den ▸ h))
  obtain ⟨multiple, hMultiple⟩ := exists_mul_place hBound hPlace
  rw [nearest_mul, hMultiple]
  exact le_roundHalfEven_add (step_pos hDen num) (hMultiple ▸ h)

/-- Rounding keeps the order: each of the two rounded magnitudes is the nearest one to its
own quotient. -/
theorem nearest_mono {num' : Nat} (hDen : 0 < den) (h : num ≤ num') :
    nearest num den ≤ nearest num' den := by
  have hFormat := twoPow_lastPlace_dvd_nearest num hDen
  have hFormat' := twoPow_lastPlace_dvd_nearest num' hDen
  rcases Nat.le_total num (nearest num' den * den) with hBelow | hAbove
  · exact nearest_le hDen hFormat' hBelow
  rcases Nat.le_total (nearest num den * den) num' with hBelow' | hAbove'
  · exact le_nearest hDen hFormat hBelow'
  · have hNear := nearest_add_le hFormat' hAbove
    have hNear' := le_nearest_add hDen hFormat hAbove'
    obtain rfl : num = num' := by omega
    exact Nat.le_refl _

/-- At one place the rounded magnitude holds what is as near as the quotient. -/
theorem nearest_eq_of_place_eq {num' : Nat} (gap : Nat) (hDen : 0 < den)
    (hPlace : lastPlace (num' / den) = lastPlace (num / den))
    (hGap : num = nearest num den * den + gap ∨ num + gap = nearest num den * den)
    (hLow : nearest num den * den ≤ num' + gap) (hHigh : num' ≤ nearest num den * den + gap) :
    nearest num' den = nearest num den := by
  have hStep := step_pos hDen num
  have hSame : place num' den = place num den := by rw [place, place, hPlace]
  rw [nearest_mul] at hGap hLow hHigh
  have hRound := (absorbs_of_add hStep hGap).roundHalfEven_eq hStep hLow hHigh
  refine Nat.eq_of_mul_eq_mul_right hDen ?_
  rw [nearest_mul, nearest_mul, hSame, hRound]

/-- What lies as far above a rounded magnitude as the quotient below it, or nearer, is
rounded to the same: where the place changes at that magnitude, it is coarser above. -/
theorem nearest_eq_of_add_le {num' : Nat} (hDen : 0 < den)
    (hLow : nearest num den * den ≤ num') (h : num + num' ≤ 2 * (nearest num den * den)) :
    nearest num' den = nearest num den := by
  have hWhole : num / den ≤ num' / den := Nat.div_le_div_right (by omega)
  rcases Nat.eq_or_lt_of_le (lastPlace_mono hWhole) with hSame | hCoarser
  · exact nearest_eq_of_place_eq (nearest num den * den - num) hDen hSame.symm
      (.inr (by omega)) (by omega) (by omega)
  · -- The rounded magnitude is the first one of the coarser place.
    have hFormat := twoPow_lastPlace_dvd_nearest num hDen
    refine Nat.le_antisymm ?_ (le_nearest hDen hFormat hLow)
    have hFirst : twoPow (lastPlace (first num' den)) ∣ first num' den := twoPow_lastPlace_dvd _
    obtain ⟨hNum, hNum'⟩ := first_mul_le hCoarser
    rw [Nat.div_lt_iff_lt_mul hDen] at hNum
    have hRounded : nearest num den * den ≤ first num' den * den :=
      Nat.mul_le_mul_right den (nearest_le hDen hFirst (Nat.le_of_lt hNum))
    have hHalf := two_mul_nearest_le num den
    have hStep := step_pos hDen num
    have hFinerStep : 2 * (den * place num den) ≤ den * place num' den := by
      rw [Nat.mul_left_comm, place, place, ← twoPow_succ]
      exact Nat.mul_le_mul_left den (twoPow_mono hCoarser)
    have hPlace : lastPlace (num / den) ≤ lastPlace (first num' den) := by
      rw [lastPlace_first]
      exact Nat.le_of_lt hCoarser
    obtain ⟨multiple, hMultiple⟩ := exists_mul_place hFirst hPlace
    have hStepUp (hLess : nearest num den * den < first num' den * den) :
        nearest num den * den + den * place num den ≤ first num' den * den := by
      rw [nearest_mul, hMultiple] at hLess ⊢
      rw [← Nat.succ_mul]
      exact Nat.mul_le_mul_right _ (Nat.lt_of_mul_lt_mul_right hLess)
    have hReach : first num' den * den ≤ nearest num den * den := by
      refine Nat.le_of_not_lt fun hLess => ?_
      have hUp := hStepUp hLess
      omega
    have hRound : roundHalfEven num' (den * place num' den) ≤ twoPow 52 := by
      refine roundHalfEven_le_of_half (step_pos hDen num') ?_
      rw [Nat.add_mul, Nat.mul_assoc, ← first_mul]
      omega
    calc nearest num' den ≤ twoPow 52 * place num' den := Nat.mul_le_mul_right _ hRound
      _ = first num' den := (first_eq_mul_place num' den).symm
      _ ≤ nearest num den := Nat.le_of_mul_le_mul_right hReach hDen

/-- A number with up to fifty-three digits is in the format at every place. -/
theorem twoPow_lastPlace_dvd_mul {digits : Nat} (h : digits < twoPow 53) (n : Nat) :
    twoPow (lastPlace (twoPow n * digits)) ∣ twoPow n * digits := by
  rcases Nat.eq_zero_or_pos digits with rfl | hPos
  · exact Nat.dvd_zero _
  · have hLog : (twoPow n * digits).log2 < n + 53 := by
      refine (Nat.log2_lt (Nat.ne_of_gt (Nat.mul_pos (twoPow_pos n) hPos))).2 ?_
      rw [Nat.pow_add]
      exact Nat.mul_lt_mul_of_pos_left h (twoPow_pos n)
    refine Nat.dvd_trans (Nat.pow_dvd_pow 2 ?_) (Nat.dvd_mul_right _ _)
    rw [lastPlace]
    omega

/-- A quotient by a number of the format that was rounded, multiplied out and rounded,
and divided and rounded again, does not change any more. -/
theorem nearest_nearest_mul {q : Nat} (hPos : 0 < q) (hFew : q < twoPow 53)
    (hNum : twoPow (lastPlace num) ∣ num) :
    nearest (nearest (nearest num q * q) 1) q = nearest num q := by
  have hFormat := twoPow_lastPlace_dvd_nearest num hPos
  generalize hProduct : nearest (nearest num q * q) 1 = product
  rcases Nat.le_total num (nearest num q * q) with hUp | hDown
  · -- Rounded up, the product is not below the numerator.
    have hLow : num ≤ product := hProduct ▸ le_nearest (by decide) hNum (by omega)
    have hNear : nearest (nearest num q * q) 1 * 1 + num * 1 ≤ 2 * (nearest num q * q) :=
      nearest_add_le hNum (by omega)
    rw [hProduct] at hNear
    rcases Nat.le_total product (nearest num q * q) with hBelow | hAbove
    · exact Nat.le_antisymm (nearest_le hPos hFormat hBelow) (nearest_mono hPos hLow)
    · exact nearest_eq_of_add_le hPos hAbove (by omega)
  · have hHigh : product ≤ num := hProduct ▸ nearest_le (by decide) hNum (by omega)
    have hNear : 2 * (nearest num q * q) ≤ nearest (nearest num q * q) 1 * 1 + num * 1 :=
      le_nearest_add (by decide) hNum (by omega)
    rw [hProduct] at hNear
    rcases Nat.le_total (nearest num q * q) product with hAbove | hBelow
    · exact Nat.le_antisymm (nearest_mono hPos hHigh) (le_nearest hPos hFormat hAbove)
    · rcases Nat.eq_or_lt_of_le (lastPlace_mono (Nat.div_le_div_right hHigh)) with hSame | hFiner
      · exact nearest_eq_of_place_eq (num - nearest num q * q) hPos hSame
          (.inl (by omega)) (by omega) (by omega)
      · -- A finer place below means a power of two, whose product is exact.
        obtain ⟨hLess, hFirst⟩ := first_mul_le hFiner
        rw [Nat.div_lt_iff_lt_mul hPos] at hLess
        have hReach : first num q ≤ nearest num q :=
          le_nearest hPos (twoPow_lastPlace_dvd _) hFirst
        have hHalf := two_mul_le_nearest hPos num
        have hRound : roundHalfEven num (q * place num q) ≤ twoPow 52 := by
          refine Nat.le_of_not_lt fun hMore => ?_
          have hStep := Nat.mul_le_mul_right (q * place num q) (Nat.succ_le_of_lt hMore)
          rw [Nat.succ_mul, ← first_mul, ← nearest_mul] at hStep
          omega
        have hEq : nearest num q = first num q := by
          refine Nat.le_antisymm ?_ hReach
          rw [first_eq_mul_place]
          exact Nat.mul_le_mul_right _ hRound
        have hExact : nearest (first num q * q * 1) 1 = first num q * q :=
          nearest_of_dvd (by decide) (twoPow_lastPlace_dvd_mul hFew _)
        rw [Nat.mul_one, ← hEq, hProduct, hEq] at hExact
        omega

end Nearest

end KeypadCalculator.Binary64
