import KeypadCalculator.Display
import KeypadCalculator.Proofs.Binary64.Distance
import KeypadCalculator.Proofs.Binary64.Numeral

/-!
Rounding to twelve places, twice. The magnitude that comes out of the first rounding is
kept by the second one, unless its product with `10 ^ 12` is rounded to a half: then the
second rounding goes up to the next place. This happens between 4096 and 4504 only, where
the format still has halves for the product while its own places are nearly as coarse as
`10 ^ -12`.
-/

namespace KeypadCalculator

open Binary64

/-- The magnitude nearest to so many times `10 ^ -12`. -/
def trillionths (count : Nat) : Nat :=
  nearest (count * one) (tenPow 12)

/-- The magnitude nearest to the product with `10 ^ 12`. -/
def timesTrillion (units : Nat) : Nat :=
  nearest (units * tenPow 12) 1

theorem twelvePlaces_eq (units : Nat) :
    twelvePlaces units = trillionths (roundHalfUp (timesTrillion units)) :=
  rfl

theorem twelvePlaces_mono {units units' : Nat} (h : units ≤ units') :
    twelvePlaces units ≤ twelvePlaces units' := by
  have hProduct : timesTrillion units ≤ timesTrillion units' :=
    nearest_mono Nat.one_pos (Nat.mul_le_mul_right _ h)
  have hRound : roundHalfUp (timesTrillion units) ≤ roundHalfUp (timesTrillion units') :=
    Nat.div_le_div_right (Nat.add_le_add_right hProduct _)
  exact nearest_mono (tenPow_pos 12) (Nat.mul_le_mul_right one hRound)

/-- The product with `10 ^ 12` of the rounded magnitude is a half above the whole number
that it was rounded to. -/
def SettlesUpwards (units : Nat) : Prop :=
  timesTrillion (twelvePlaces units) = roundHalfUp (timesTrillion units) * one + one / 2

instance (units : Nat) : Decidable (SettlesUpwards units) :=
  inferInstanceAs (Decidable (_ = _))

theorem two_mul_half : 2 * (one / 2) = one := by
  decide +kernel

theorem half_dvd_one : one / 2 ∣ one :=
  ⟨2, by rw [Nat.mul_comm, two_mul_half]⟩

-- The exponents stay bound: with them as numerals the powers would be evaluated.
theorem exists_twoPow_eq_one : ∃ n, one = twoPow n :=
  ⟨1074, by decide +kernel⟩

theorem exists_twoPow_eq_half : ∃ n, one / 2 = twoPow n :=
  ⟨1073, by decide +kernel⟩

theorem roundHalfUp_eq {units whole : Nat} (hLow : whole * one ≤ units + one / 2)
    (hHigh : units < whole * one + one / 2) : roundHalfUp units = whole := by
  have hHalf := two_mul_half
  refine Nat.div_eq_of_lt_le hLow ?_
  rw [Nat.add_mul]
  omega

theorem roundHalfUp_mul_of_dvd {units : Nat} (h : one ∣ units) :
    roundHalfUp units * one = units := by
  have hHalf := two_mul_half
  have hPos := one_units_pos
  have hWhole : units / one * one = units := Nat.div_mul_cancel h
  have hRound : roundHalfUp units = units / one := roundHalfUp_eq (by omega) (by omega)
  rw [hRound, hWhole]

/-- From fifty-three digits above a place on, the format has only multiples of it. -/
theorem twoPow_dvd_of_le {units n : Nat} (h : twoPow (lastPlace units) ∣ units)
    (hLow : twoPow 52 * twoPow n ≤ units) : twoPow n ∣ units := by
  have hPlace : n ≤ lastPlace units := Nat.le_of_not_lt fun hFiner =>
    Nat.not_le_of_lt (lt_of_lastPlace_lt hFiner) hLow
  exact Nat.dvd_trans (Nat.pow_dvd_pow 2 hPlace) h

theorem one_dvd_of_le {units : Nat} (h : twoPow (lastPlace units) ∣ units)
    (hLow : twoPow 52 * one ≤ units) : one ∣ units := by
  obtain ⟨n, hOne⟩ := exists_twoPow_eq_one
  rw [hOne] at hLow ⊢
  exact twoPow_dvd_of_le h hLow

theorem half_dvd_of_le {units : Nat} (h : twoPow (lastPlace units) ∣ units)
    (hLow : twoPow 51 * one ≤ units) : one / 2 ∣ units := by
  have hSame : twoPow 51 * one = twoPow 52 * (one / 2) := by
    rw [show twoPow 52 = twoPow 51 * 2 from rfl, Nat.mul_assoc, two_mul_half]
  obtain ⟨n, hHalf⟩ := exists_twoPow_eq_half
  rw [hSame, hHalf] at hLow
  rw [hHalf]
  exact twoPow_dvd_of_le h hLow

theorem twoPow_lastPlace_dvd_mul_one {whole : Nat} (h : whole < twoPow 53) :
    twoPow (lastPlace (whole * one)) ∣ whole * one := by
  obtain ⟨n, hOne⟩ := exists_twoPow_eq_one
  rw [hOne, Nat.mul_comm]
  exact twoPow_lastPlace_dvd_mul h n

theorem twoPow_lastPlace_dvd_timesTrillion (units : Nat) :
    twoPow (lastPlace (timesTrillion units)) ∣ timesTrillion units :=
  twoPow_lastPlace_dvd_nearest _ Nat.one_pos

/-- The whole number that a magnitude of the format is rounded to is in the format. -/
theorem twoPow_lastPlace_dvd_roundHalfUp {units : Nat} (h : twoPow (lastPlace units) ∣ units) :
    twoPow (lastPlace (roundHalfUp units * one)) ∣ roundHalfUp units * one := by
  rcases Nat.lt_or_ge units (twoPow 52 * one) with hFew | hMany
  · refine twoPow_lastPlace_dvd_mul_one ?_
    have hHalf := two_mul_half
    have hPos := one_units_pos
    have hTwice : twoPow 53 * one = 2 * (twoPow 52 * one) := by
      rw [← Nat.mul_assoc, show 2 * twoPow 52 = twoPow 53 from rfl]
    have hFirst : one ≤ twoPow 52 * one := Nat.le_mul_of_pos_left one (twoPow_pos 52)
    rw [roundHalfUp, Nat.div_lt_iff_lt_mul one_units_pos]
    omega
  · rw [roundHalfUp_mul_of_dvd (one_dvd_of_le h hMany)]
    exact h

theorem step_lt {num den n bound : Nat} (hPlace : lastPlace (num / den) ≤ n)
    (h : den * twoPow n < bound) : den * place num den < bound :=
  Nat.lt_of_le_of_lt (Nat.mul_le_mul_left den (twoPow_mono hPlace)) h

/-- A product below `2 ^ 52` comes from a count below it. -/
theorem lt_of_timesTrillion_lt {count : Nat}
    (h : timesTrillion (trillionths count) < twoPow 52 * one) : count < twoPow 52 := by
  refine Nat.lt_of_not_le fun hMany => Nat.not_le_of_lt h ?_
  have hStart : timesTrillion (trillionths (twoPow 52)) = twoPow 52 * one := by decide +kernel
  have hCount : twoPow 52 * one ≤ count * one := Nat.mul_le_mul_right one hMany
  rw [← hStart]
  exact nearest_mono Nat.one_pos (Nat.mul_le_mul_right _ (nearest_mono (tenPow_pos 12) hCount))

theorem lastPlace_trillionths_le {count : Nat} (h : count ≤ twoPow 52) :
    lastPlace (count * one / tenPow 12) ≤ 1034 := by
  have hLast : lastPlace (twoPow 52 * one / tenPow 12) = 1034 := by decide +kernel
  rw [← hLast]
  exact lastPlace_mono (Nat.div_le_div_right (Nat.mul_le_mul_right one h))

/-- Up to `2 ^ 52` the next count has another quotient: the places there are finer than
`10 ^ -12`. -/
theorem trillionths_succ_ne {count : Nat} (h : count < twoPow 52) :
    trillionths (count + 1) ≠ trillionths count := by
  intro hSame
  have hStep : tenPow 12 * place (count * one) (tenPow 12) < one :=
    step_lt (lastPlace_trillionths_le (Nat.le_of_lt h)) (by decide +kernel)
  have hStep' : tenPow 12 * place ((count + 1) * one) (tenPow 12) < one :=
    step_lt (lastPlace_trillionths_le h) (by decide +kernel)
  have hDown := two_mul_nearest_le (count * one) (tenPow 12)
  have hUp := two_mul_le_nearest (tenPow_pos 12) ((count + 1) * one)
  rw [← trillionths] at hDown hUp
  have hNext : (count + 1) * one = count * one + one := Nat.succ_mul count one
  rw [hSame] at hUp
  omega

/-- Multiples of one number that are less than twice it apart are at most once it apart. -/
theorem multiples_near {half units target : Nat} (h : half ∣ units) (hTarget : half ∣ target)
    (hHigh : units < target + 2 * half) (hLow : target < units + 2 * half) :
    units + half = target ∨ units = target ∨ units = target + half := by
  obtain ⟨m, rfl⟩ := h
  obtain ⟨n, rfl⟩ := hTarget
  rw [Nat.mul_comm 2, ← Nat.mul_add] at hHigh hLow
  have hMost := Nat.lt_of_mul_lt_mul_left hHigh
  have hLeast := Nat.lt_of_mul_lt_mul_left hLow
  obtain rfl | rfl | rfl : n = m + 1 ∨ m = n ∨ m = n + 1 := by omega
  · exact .inl rfl
  · exact .inr (.inl rfl)
  · exact .inr (.inr rfl)

section Trillionths

variable {count : Nat} (hCount : twoPow (lastPlace (count * one)) ∣ count * one)
include hCount

/-- The product with `10 ^ 12` is as far from the count as the rounded quotient was moved,
or nearer than twice that. -/
theorem timesTrillion_trillionths_near {step : Nat}
    (hStep : tenPow 12 * place (count * one) (tenPow 12) < step) :
    timesTrillion (trillionths count) < count * one + step ∧
      count * one < timesTrillion (trillionths count) + step := by
  have hUp := two_mul_le_nearest (tenPow_pos 12) (count * one)
  have hDown := two_mul_nearest_le (count * one) (tenPow 12)
  rw [← trillionths] at hUp hDown
  rcases Nat.le_total (count * one) (trillionths count * tenPow 12) with hAbove | hBelow
  · have hLow : count * one ≤ timesTrillion (trillionths count) :=
      le_nearest Nat.one_pos hCount (by omega)
    have hNear : timesTrillion (trillionths count) * 1 + count * one * 1 ≤
        2 * (trillionths count * tenPow 12) := nearest_add_le hCount (by omega)
    omega
  · have hHigh : timesTrillion (trillionths count) ≤ count * one :=
      nearest_le Nat.one_pos hCount (by omega)
    have hNear : 2 * (trillionths count * tenPow 12) ≤
        timesTrillion (trillionths count) * 1 + count * one * 1 :=
      le_nearest_add Nat.one_pos hCount (by omega)
    omega

/-- Where the product has a fraction, it is rounded to the count, or it is a half above it. -/
theorem timesTrillion_trillionths_cases
    (h : timesTrillion (trillionths count) < twoPow 52 * one) :
    (count * one ≤ timesTrillion (trillionths count) + one / 2 ∧
        timesTrillion (trillionths count) < count * one + one / 2) ∨
      (timesTrillion (trillionths count) = count * one + one / 2 ∧
        4096 * one ≤ trillionths count) := by
  have hPlace := lastPlace_trillionths_le (Nat.le_of_lt (lt_of_timesTrillion_lt h))
  have hHalf := two_mul_half
  rcases Nat.eq_or_lt_of_le hPlace with hCoarse | hFine
  · -- From 4096 on the product is a multiple of a half.
    have hStep : tenPow 12 * place (count * one) (tenPow 12) < one :=
      step_lt hPlace (by decide +kernel)
    have hQuotient : 4096 * one ≤ trillionths count := by
      have hDigits : twoPow 52 * twoPow (lastPlace (count * one / tenPow 12)) ≤
          count * one / tenPow 12 := le_of_lastPlace_pos (by omega)
      have hStart : twoPow 52 * twoPow 1034 = 4096 * one := by decide +kernel
      rw [hCoarse, hStart, Nat.le_div_iff_mul_le (tenPow_pos 12)] at hDigits
      exact le_nearest (tenPow_pos 12) (twoPow_lastPlace_dvd_mul_one (by decide)) hDigits
    have hProduct : twoPow 51 * one ≤ timesTrillion (trillionths count) := by
      refine le_nearest Nat.one_pos (twoPow_lastPlace_dvd_mul_one (by decide)) ?_
      have hStart : twoPow 51 * one * 1 ≤ 4096 * one * tenPow 12 := by
        rw [Nat.mul_one, Nat.mul_right_comm]
        exact Nat.mul_le_mul_right one (by decide)
      exact Nat.le_trans hStart (Nat.mul_le_mul_right _ hQuotient)
    obtain ⟨hHigh, hLow⟩ := timesTrillion_trillionths_near hCount hStep
    have hDvd := half_dvd_of_le (twoPow_lastPlace_dvd_timesTrillion _) hProduct
    have hWhole : one / 2 ∣ count * one :=
      Nat.dvd_trans half_dvd_one (Nat.dvd_mul_left one count)
    have hPos := one_units_pos
    rcases multiples_near hDvd hWhole (by omega) (by omega) with hDown | hSame | hUp
    · exact .inl (by omega)
    · exact .inl (by omega)
    · exact .inr ⟨hUp, hQuotient⟩
  · have hStep : tenPow 12 * place (count * one) (tenPow 12) < one / 2 :=
      step_lt (Nat.le_of_lt_succ hFine) (by decide +kernel)
    obtain ⟨hHigh, hLow⟩ := timesTrillion_trillionths_near hCount hStep
    exact .inl ⟨Nat.le_of_lt hLow, hHigh⟩

end Trillionths

theorem twoPow_lastPlace_dvd_rounded (units : Nat) :
    twoPow (lastPlace (roundHalfUp (timesTrillion units) * one)) ∣
      roundHalfUp (timesTrillion units) * one :=
  twoPow_lastPlace_dvd_roundHalfUp (twoPow_lastPlace_dvd_timesTrillion units)

/-- A magnitude that settles upwards lies, once settled, where the places are coarse and
the product with `10 ^ 12` still has a fraction. -/
theorem SettlesUpwards.product_lt {units : Nat} (h : SettlesUpwards units) :
    timesTrillion (twelvePlaces units) < twoPow 52 * one := by
  refine Nat.lt_of_not_le fun hMany => ?_
  have hHalf := two_mul_half
  have hPos := one_units_pos
  have hDvd := one_dvd_of_le (twoPow_lastPlace_dvd_timesTrillion _) hMany
  rw [h] at hDvd
  have hRest := (Nat.dvd_add_right (Nat.dvd_mul_left one _)).1 hDvd
  exact absurd (Nat.le_of_dvd (by omega) hRest) (by omega)

theorem SettlesUpwards.location {units : Nat} (h : SettlesUpwards units) :
    4096 * one ≤ twelvePlaces units ∧ twelvePlaces units < 4504 * one := by
  have hProduct := h.product_lt
  have hHalf := two_mul_half
  refine ⟨?_, ?_⟩
  · rcases timesTrillion_trillionths_cases (twoPow_lastPlace_dvd_rounded units) hProduct with
      ⟨-, hHigh⟩ | ⟨-, hQuotient⟩
    · rw [SettlesUpwards] at h
      rw [← twelvePlaces_eq] at hHigh
      omega
    · exact hQuotient
  · have hCount := lt_of_timesTrillion_lt hProduct
    have hTop : trillionths (twoPow 52) < 4504 * one := by decide +kernel
    exact Nat.lt_of_le_of_lt (nearest_mono (tenPow_pos 12)
      (Nat.mul_le_mul_right one (Nat.le_of_lt hCount))) hTop

/-- Rounding to twelve places is final unless it settles upwards. -/
theorem twelvePlaces_twelvePlaces_iff (units : Nat) :
    twelvePlaces (twelvePlaces units) = twelvePlaces units ↔ ¬ SettlesUpwards units := by
  have hFormat := twoPow_lastPlace_dvd_rounded units
  rcases Nat.lt_or_ge (timesTrillion (twelvePlaces units)) (twoPow 52 * one) with hFew | hMany
  · rcases timesTrillion_trillionths_cases hFormat hFew with ⟨hLow, hHigh⟩ | ⟨hUp, -⟩
    · have hSame := roundHalfUp_eq hLow hHigh
      refine iff_of_true ?_ (Nat.ne_of_lt hHigh)
      rw [twelvePlaces_eq (twelvePlaces units), twelvePlaces_eq units, hSame]
    · rw [← twelvePlaces_eq] at hUp
      refine iff_of_false ?_ fun hNot => hNot hUp
      have hHalf := two_mul_half
      have hPos := one_units_pos
      have hNext := Nat.add_one_mul (roundHalfUp (timesTrillion units)) one
      have hRound : roundHalfUp (timesTrillion (twelvePlaces units)) =
          roundHalfUp (timesTrillion units) + 1 := roundHalfUp_eq (by omega) (by omega)
      rw [twelvePlaces_eq (twelvePlaces units), hRound]
      exact trillionths_succ_ne (lt_of_timesTrillion_lt hFew)
  · refine iff_of_true ?_ fun hUp => Nat.not_le_of_lt hUp.product_lt hMany
    have hDvd := one_dvd_of_le (twoPow_lastPlace_dvd_timesTrillion _) hMany
    rw [twelvePlaces_eq (twelvePlaces units), trillionths, roundHalfUp_mul_of_dvd hDvd]
    exact nearest_nearest_mul (tenPow_pos 12) (by decide) hFormat

end KeypadCalculator
