import KeypadCalculator.Binary64.Basic

/-!
Rounding of exact quotients to the nearest number, ties to the even neighbour.
-/

namespace KeypadCalculator.Binary64

/-- The whole number nearest to `num / den`; a half goes to the even neighbour. -/
def roundHalfEven (num den : Nat) : Nat :=
  let below := num / den
  let rest := num % den
  if 2 * rest < den ∨ (2 * rest = den ∧ below % 2 = 0) then below else below + 1

/-- The magnitude nearest to `num / den` units. Its last place is that of the
quotient, and the digit there is rounded. -/
def nearest (num den : Nat) : Nat :=
  let place := twoPow (lastPlace (num / den))
  roundHalfEven num (den * place) * place

/-- The number nearest to `num / den` units, infinite from half a place above
the greatest finite number on. -/
def ofQuotient (negative : Bool) (num den : Nat) : Binary64 :=
  ofUnits negative (nearest num den)

theorem roundHalfEven_le {num den bound : Nat} (hDen : 0 < den) (h : num < bound * den) :
    roundHalfEven num den ≤ bound := by
  have hBelow : num / den < bound := (Nat.div_lt_iff_lt_mul hDen).2 h
  unfold roundHalfEven
  dsimp only
  split <;> omega

/-- What rounding gives is zero from its last place down. -/
theorem twoPow_lastPlace_dvd_nearest (num : Nat) {den : Nat} (hDen : 0 < den) :
    twoPow (lastPlace (nearest num den)) ∣ nearest num den := by
  show 2 ^ lastPlace (nearest num den) ∣ nearest num den
  generalize hPlace : lastPlace (num / den) = place
  have hNearest : nearest num den = roundHalfEven num (den * 2 ^ place) * 2 ^ place := by
    simp only [nearest, hPlace, twoPow, Nat.pow_eq]
  have hNum : num < 2 ^ 53 * (den * 2 ^ place) := by
    have hQuotient : num / den < 2 ^ (53 + place) := by
      refine Nat.lt_of_lt_of_le Nat.lt_log2_self (Nat.pow_le_pow_right (by decide) ?_)
      rw [lastPlace] at hPlace
      omega
    rw [Nat.div_lt_iff_lt_mul hDen, Nat.pow_add] at hQuotient
    calc num < 2 ^ 53 * 2 ^ place * den := hQuotient
      _ = 2 ^ 53 * (den * 2 ^ place) := by
        rw [Nat.mul_assoc, Nat.mul_comm (2 ^ place)]
  have hDigits : roundHalfEven num (den * 2 ^ place) ≤ 2 ^ 53 :=
    roundHalfEven_le (Nat.mul_pos hDen (Nat.two_pow_pos place)) hNum
  rw [hNearest]
  generalize roundHalfEven num (den * 2 ^ place) = digits at hDigits
  rcases Nat.eq_or_lt_of_le hDigits with hFull | hShort
  · subst hFull
    rw [← Nat.pow_add, lastPlace, Nat.log2_two_pow]
    exact Nat.pow_dvd_pow 2 (by omega)
  · rcases Nat.eq_zero_or_pos digits with hZero | hPos
    · simp [hZero]
    · have hLog : (digits * 2 ^ place).log2 < 53 + place := by
        refine (Nat.log2_lt (Nat.ne_of_gt (Nat.mul_pos hPos (Nat.two_pow_pos place)))).2 ?_
        rw [Nat.pow_add]
        exact Nat.mul_lt_mul_of_pos_right hShort (Nat.two_pow_pos place)
      refine Nat.dvd_trans (Nat.pow_dvd_pow 2 ?_) (Nat.dvd_mul_left (2 ^ place) digits)
      rw [lastPlace]
      omega

/-- Rounding gives a magnitude of the format, unless it gives one that is too
great for it. -/
theorem representable_nearest {num den : Nat} (hDen : 0 < den)
    (hBound : nearest num den < twoPow 2098) : Representable (nearest num den) :=
  ⟨hBound, twoPow_lastPlace_dvd_nearest num hDen⟩

end KeypadCalculator.Binary64
