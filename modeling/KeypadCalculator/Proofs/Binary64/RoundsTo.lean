import Mathlib.Algebra.Order.Field.Basic
import Mathlib.Algebra.Order.Field.Rat
import Mathlib.Tactic.Linarith
import Mathlib.Tactic.Positivity
import KeypadCalculator.Proofs.Binary64.SeventeenDigits

/-!
Rounding against rational numbers. A rounded quotient is infinite from half a place
above the greatest finite number on. Below that it is a finite number, no finite
number is nearer to the quotient, and where another one is as near, the last digit
of the rounded one is even.
-/

namespace KeypadCalculator.Binary64

/-- A magnitude with a sign. -/
def withSign (negative : Bool) (magnitude : ℚ) : ℚ :=
  if negative then -magnitude else magnitude

/-- What a finite number stands for. -/
def number : Binary64 → ℚ
  | .finite negative units _ => withSign negative (units / one)
  | _ => 0

/-- The last binary digit that the format keeps of a finite number is zero. -/
def EndsEven : Binary64 → Prop
  | .finite _ units _ => 2 * twoPow (lastPlace units) ∣ units
  | _ => False

/-- The middle between the greatest finite number and the power of two above it. -/
def overflow : Nat :=
  twoPow 1024 - twoPow 970

/-- A number of the format is the rounding of a rational number. The flag is the sign of
the infinity and of zero. -/
structure RoundsTo (q : ℚ) (negative : Bool) (b : Binary64) : Prop where
  infinite : overflow ≤ |q| → b = .infinite negative
  finite : |q| < overflow → ∃ units h, b = .finite negative units h
  nearest : |q| < overflow → ∀ other : Binary64, other.isFinite = true →
    |b.number - q| ≤ |other.number - q|
  even : |q| < overflow → ∀ other : Binary64, other.isFinite = true →
    |other.number - q| = |b.number - q| → other.number ≠ b.number → b.EndsEven

section Magnitudes

variable {num den bound : Nat}

/-- A multiple as near as the one that is rounded to is next to it, half a step from the
quotient. -/
theorem roundHalfEven_even_of_tie {multiple : Nat} (hDen : 0 < den)
    (hOther : multiple ≠ roundHalfEven num den)
    (hTie : roundHalfEven num den * den + multiple * den = 2 * num) :
    roundHalfEven num den % 2 = 0 := by
  rcases Nat.lt_or_gt_of_ne hOther with hLess | hMore
  · have hNext := Nat.mul_le_mul_right den (Nat.succ_le_of_lt hLess)
    rw [Nat.succ_mul] at hNext
    have hUp : num + (roundHalfEven num den * den - num) = roundHalfEven num den * den := by
      omega
    have hAbsorbs := absorbs_of_add hDen (.inr hUp)
    have hHalf := hAbsorbs.half
    exact hAbsorbs.even (by omega)
  · have hNext := Nat.mul_le_mul_right den (Nat.succ_le_of_lt hMore)
    rw [Nat.succ_mul] at hNext
    have hDown : num = roundHalfEven num den * den + (num - roundHalfEven num den * den) := by
      omega
    have hAbsorbs := absorbs_of_add hDen (.inl hDown)
    have hHalf := hAbsorbs.half
    exact hAbsorbs.even (by omega)

theorem roundHalfEven_place_le (hDen : 0 < den) (num : Nat) :
    roundHalfEven num (den * place num den) ≤ twoPow 53 := by
  refine roundHalfEven_le (step_pos hDen num) ?_
  have hWhole := lt_mul_place (num / den)
  rw [Nat.div_lt_iff_lt_mul hDen, Nat.mul_assoc, Nat.mul_comm (twoPow (lastPlace _))] at hWhole
  exact hWhole

/-- Even digits at a place are even at the last place of what they come to. Where they fill
a coarser place, that is a power of two. -/
theorem two_mul_twoPow_lastPlace_dvd {digits : Nat} (hFew : digits ≤ twoPow 53)
    (hEven : digits % 2 = 0) (n : Nat) :
    2 * twoPow (lastPlace (digits * twoPow n)) ∣ digits * twoPow n := by
  rcases Nat.eq_or_lt_of_le hFew with rfl | hLess
  · rw [← twoPow_add, ← twoPow_succ]
    refine Nat.pow_dvd_pow 2 ?_
    simp only [lastPlace, twoPow, Nat.pow_eq, Nat.log2_two_pow]
    omega
  · obtain ⟨half, rfl⟩ := Nat.dvd_of_mod_eq_zero hEven
    have hPlace := lastPlace_mul_twoPow_le hLess n
    rw [Nat.mul_assoc] at hPlace ⊢
    exact Nat.mul_dvd_mul_left 2 (Nat.dvd_mul_left_of_dvd (Nat.pow_dvd_pow 2 hPlace) half)

/-- A magnitude as near as the rounded one has no finer place: the first magnitude of the
coarser place would be nearer. -/
theorem lastPlace_le_of_tie (hDen : 0 < den)
    (hTie : nearest num den * den + bound * den = 2 * num) :
    lastPlace (num / den) ≤ lastPlace bound := by
  refine Nat.le_of_not_lt fun hFiner => ?_
  obtain ⟨hLess, hNum⟩ := first_mul_le hFiner
  have hBelow := Nat.mul_lt_mul_of_pos_right hLess hDen
  rw [first_mul] at hNum hBelow
  have hFirst := roundHalfEven_add_le hNum
  rw [← nearest_mul] at hFirst
  omega

/-- Of two magnitudes that are equally near, the one with the even last digit is taken. -/
theorem two_mul_dvd_nearest_of_tie (hDen : 0 < den) (hBound : twoPow (lastPlace bound) ∣ bound)
    (hOther : bound ≠ nearest num den) (hTie : nearest num den * den + bound * den = 2 * num) :
    2 * twoPow (lastPlace (nearest num den)) ∣ nearest num den := by
  obtain ⟨multiple, hMultiple⟩ := exists_mul_place hBound (lastPlace_le_of_tie hDen hTie)
  have hFew := roundHalfEven_place_le hDen num
  have hApart : multiple ≠ roundHalfEven num (den * place num den) := by
    rintro rfl
    rw [← nearest_mul] at hMultiple
    exact hOther (Nat.eq_of_mul_eq_mul_right hDen hMultiple)
  rw [nearest_mul, hMultiple] at hTie
  have hEven := roundHalfEven_even_of_tie (step_pos hDen num) hApart hTie
  exact two_mul_twoPow_lastPlace_dvd hFew hEven _

/-- The middle above the greatest magnitude, which is odd: all fifty-three digits are ones. -/
theorem overflow_middle :
    2 * (overflow * one) = greatest + twoPow 2098 ∧
      ¬ 2 * twoPow (lastPlace greatest) ∣ greatest := by
  decide +kernel

/-- Beyond the greatest magnitude there is another half place that is rounded to it. -/
theorem nearest_lt_iff (hDen : 0 < den) :
    nearest num den < twoPow 2098 ↔ 2 * num < greatest * den + twoPow 2098 * den := by
  have hPower := twoPow_lastPlace_dvd 2098
  constructor
  · intro hBound
    have hGreatest := le_greatest (representable_nearest hDen hBound)
    have hMul := Nat.mul_le_mul_right den hGreatest
    have hNum : num ≤ twoPow 2098 * den := by
      refine Nat.le_of_not_lt fun hAbove => ?_
      exact Nat.not_le.mpr hBound (le_nearest hDen hPower (Nat.le_of_lt hAbove))
    have hNear := le_nearest_add hDen hPower hNum
    refine Nat.lt_of_le_of_ne (by omega) fun hMiddle => ?_
    -- The middle goes to the power of two, because the greatest magnitude is odd.
    have hRounded : nearest num den = greatest :=
      Nat.eq_of_mul_eq_mul_right hDen (by omega)
    have hEven := two_mul_dvd_nearest_of_tie hDen hPower (Nat.ne_of_gt hBound) (by omega)
    rw [hRounded] at hEven
    exact overflow_middle.2 hEven
  · intro hNum
    rcases Nat.le_total num (greatest * den) with hBelow | hAbove
    · exact Nat.lt_of_le_of_lt (nearest_le hDen representable_greatest.2 hBelow)
        representable_greatest.1
    · have hNear := nearest_add_le representable_greatest.2 hAbove
      exact Nat.lt_of_mul_lt_mul_right (show nearest num den * den < twoPow 2098 * den by omega)

end Magnitudes

section Sign

variable {a b : ℚ}

theorem withSign_zero (negative : Bool) : withSign negative 0 = 0 := by
  cases negative
  · rfl
  · exact neg_zero

theorem withSign_injective (negative : Bool) : Function.Injective (withSign negative) := by
  cases negative
  · exact fun _ _ hSame => hSame
  · exact fun _ _ hSame => neg_inj.mp hSame

theorem abs_withSign (negative : Bool) (a : ℚ) : |withSign negative a| = |a| := by
  cases negative
  · rfl
  · exact abs_neg a

theorem abs_withSign_sub (negative : Bool) (a b : ℚ) :
    |withSign negative a - withSign negative b| = |a - b| := by
  cases negative
  · rfl
  · show |-a - -b| = |a - b|
    rw [neg_sub_neg, abs_sub_comm]

theorem abs_withSign_sub_of_ne {negative negative' : Bool} (h : negative ≠ negative')
    (ha : 0 ≤ a) (hb : 0 ≤ b) : |withSign negative a - withSign negative' b| = a + b := by
  cases negative <;> cases negative'
  · exact absurd rfl h
  · show |a - -b| = a + b
    rw [sub_neg_eq_add, abs_of_nonneg (add_nonneg ha hb)]
  · show |-a - b| = a + b
    rw [← neg_add', abs_neg, abs_of_nonneg (add_nonneg ha hb)]
  · exact absurd rfl h

/-- A magnitude is not nearer on the other side of zero. -/
theorem abs_sub_le_abs_withSign_sub (negative negative' : Bool) (ha : 0 ≤ a) (hb : 0 ≤ b) :
    |a - b| ≤ |withSign negative a - withSign negative' b| := by
  rcases eq_or_ne negative negative' with rfl | hApart
  · rw [abs_withSign_sub]
  · rw [abs_withSign_sub_of_ne hApart ha hb]
    exact abs_le.mpr ⟨by linarith, by linarith⟩

/-- It is as near there only from zero. -/
theorem eq_zero_of_abs_withSign_sub_eq {negative negative' : Bool} (ha : 0 ≤ a) (hb : 0 ≤ b)
    (hApart : withSign negative a ≠ withSign negative' a)
    (h : |withSign negative a - withSign negative' b| = |a - b|) : b = 0 := by
  have hSign : negative ≠ negative' := by
    rintro rfl
    exact hApart rfl
  have hPos : 0 < a := by
    refine lt_of_le_of_ne ha fun hZero => hApart ?_
    rw [← hZero, withSign_zero, withSign_zero]
  rw [abs_withSign_sub_of_ne hSign ha hb] at h
  rcases abs_choice (a - b) with hAbs | hAbs
  · rw [hAbs] at h
    linarith
  · rw [hAbs] at h
    linarith

end Sign

section Distance

variable {num den bound : Nat}

/-- The number of a quotient of units. -/
def quotient (num den : Nat) : ℚ :=
  num / (den * one : Nat)

theorem quotient_nonneg (num den : Nat) : 0 ≤ quotient num den :=
  div_nonneg (Nat.cast_nonneg num) (Nat.cast_nonneg _)

theorem quotient_mul_one (num den : Nat) : quotient (num * one) den = (num : ℚ) / den := by
  rw [quotient, Nat.cast_mul, Nat.cast_mul,
    mul_div_mul_right _ _ (Nat.cast_ne_zero.mpr (Nat.ne_of_gt one_units_pos))]

theorem div_one_nonneg (units : Nat) : 0 ≤ (units : ℚ) / one :=
  div_nonneg (Nat.cast_nonneg units) (Nat.cast_nonneg one)

/-- Distances are counted in whole parts of a unit. -/
theorem abs_div_one_sub (hDen : 0 < den) (units : Nat) :
    |(units : ℚ) / one - quotient num den| =
      |((units * den : Nat) : ℚ) - num| / (den * one : Nat) := by
  have hScale : (units : ℚ) / one = (units * den : Nat) / (den * one : Nat) := by
    rw [Nat.mul_comm units den, Nat.cast_mul, Nat.cast_mul,
      mul_div_mul_left _ _ (Nat.cast_ne_zero.mpr (Nat.ne_of_gt hDen))]
  rw [hScale, quotient, ← sub_div, abs_div, Nat.abs_cast]

theorem scale_pos (hDen : 0 < den) : (0 : ℚ) < (den * one : Nat) :=
  Nat.cast_pos.mpr (Nat.mul_pos hDen one_units_pos)

/-- No magnitude of the format is nearer to a quotient than the rounded one. -/
theorem abs_nearest_sub_le (hDen : 0 < den) (hBound : twoPow (lastPlace bound) ∣ bound) :
    |(nearest num den : ℚ) / one - quotient num den| ≤
      |(bound : ℚ) / one - quotient num den| := by
  rw [abs_div_one_sub hDen, abs_div_one_sub hDen]
  refine div_le_div_of_nonneg_right ?_ (le_of_lt (scale_pos hDen))
  rcases Nat.le_total (bound * den) num with hBelow | hAbove
  · have hNear : ((nearest num den * den : Nat) : ℚ) + (bound * den : Nat) ≤ 2 * num := by
      exact_mod_cast nearest_add_le hBound hBelow
    have hOrder : ((bound * den : Nat) : ℚ) ≤ (nearest num den * den : Nat) :=
      Nat.cast_le.mpr (Nat.mul_le_mul_right den (le_nearest hDen hBound hBelow))
    rw [abs_sub_comm ((bound * den : Nat) : ℚ)]
    exact abs_le_abs (by linarith) (by linarith)
  · have hNear : 2 * (num : ℚ) ≤ (nearest num den * den : Nat) + (bound * den : Nat) := by
      exact_mod_cast le_nearest_add hDen hBound hAbove
    have hOrder : ((nearest num den * den : Nat) : ℚ) ≤ (bound * den : Nat) :=
      Nat.cast_le.mpr (Nat.mul_le_mul_right den (nearest_le hDen hBound hAbove))
    exact abs_le_abs (by linarith) (by linarith)

/-- What is as near is the rounded magnitude itself or lies on the other side. -/
theorem eq_nearest_or_tie (hDen : 0 < den)
    (h : |(bound : ℚ) / one - quotient num den| =
      |(nearest num den : ℚ) / one - quotient num den|) :
    bound = nearest num den ∨ nearest num den * den + bound * den = 2 * num := by
  rw [abs_div_one_sub hDen, abs_div_one_sub hDen, div_left_inj' (ne_of_gt (scale_pos hDen)),
    abs_eq_abs] at h
  rcases h with hSame | hOpposite
  · have hMul : bound * den = nearest num den * den := by
      exact_mod_cast sub_left_inj.mp hSame
    exact .inl (Nat.eq_of_mul_eq_mul_right hDen hMul)
  · have hSum : ((nearest num den * den : Nat) : ℚ) + (bound * den : Nat) = 2 * num := by
      linarith
    exact .inr (by exact_mod_cast hSum)

/-- Rounding is finite up to the middle above the greatest number. -/
theorem representable_nearest_iff (hDen : 0 < den) :
    Representable (nearest num den) ↔ quotient num den < overflow := by
  have hBound : Representable (nearest num den) ↔ nearest num den < twoPow 2098 :=
    ⟨And.left, representable_nearest hDen⟩
  have hMiddle : greatest * den + twoPow 2098 * den = 2 * (overflow * (den * one)) := by
    rw [← Nat.add_mul, ← overflow_middle.1, Nat.mul_assoc, Nat.mul_assoc,
      Nat.mul_comm one]
  rw [hBound, nearest_lt_iff hDen, hMiddle, Nat.mul_lt_mul_left (by decide), quotient,
    div_lt_iff₀ (scale_pos hDen)]
  exact_mod_cast Iff.rfl

theorem nearest_eq_zero_of_quotient (hDen : 0 < den) (h : quotient num den = 0) :
    nearest num den = 0 := by
  rw [quotient, div_eq_zero_iff, or_iff_left (ne_of_gt (scale_pos hDen)),
    Nat.cast_eq_zero] at h
  exact nearest_eq_zero (by omega)

theorem abs_nearest_sub_le_abs_number_sub (negative : Bool) (num : Nat) (hDen : 0 < den)
    {other : Binary64} (h : other.isFinite = true) :
    |withSign negative (nearest num den / one) - withSign negative (quotient num den)| ≤
      |other.number - withSign negative (quotient num den)| := by
  cases other with
  | finite negative' units hUnits =>
      rw [abs_withSign_sub]
      exact le_trans (abs_nearest_sub_le hDen hUnits.2)
        (abs_sub_le_abs_withSign_sub _ _ (div_one_nonneg units) (quotient_nonneg num den))
  | infinite => cases h
  | notANumber => cases h

/-- A finite number that is as near is one of the same sign on the other side of the
quotient. -/
theorem two_mul_dvd_nearest_of_number (negative : Bool) (num : Nat) (hDen : 0 < den)
    {other : Binary64} (h : other.isFinite = true)
    (hNear : |other.number - withSign negative (quotient num den)| =
      |withSign negative (nearest num den / one) - withSign negative (quotient num den)|)
    (hOther : other.number ≠ withSign negative (nearest num den / one)) :
    2 * twoPow (lastPlace (nearest num den)) ∣ nearest num den := by
  cases other with
  | finite negative' units hUnits =>
      have hUnits' := div_one_nonneg units
      have hQuotient := quotient_nonneg num den
      rw [abs_withSign_sub] at hNear
      have hMagnitude : |(units : ℚ) / one - quotient num den| =
          |(nearest num den : ℚ) / one - quotient num den| :=
        le_antisymm (hNear ▸ abs_sub_le_abs_withSign_sub _ _ hUnits' hQuotient)
          (abs_nearest_sub_le hDen hUnits.2)
      by_cases hSame : units = nearest num den
      · subst hSame
        rw [nearest_eq_zero_of_quotient hDen
          (eq_zero_of_abs_withSign_sub_eq hUnits' hQuotient hOther hNear)]
        exact Nat.dvd_zero _
      · have hTie := (eq_nearest_or_tie hDen hMagnitude).resolve_left hSame
        exact two_mul_dvd_nearest_of_tie hDen hUnits.2 hSame hTie
  | infinite => cases h
  | notANumber => cases h

/-- A rounded quotient is its rounding as a rational number. -/
theorem roundsTo_ofQuotient (negative : Bool) (num : Nat) (hDen : 0 < den) :
    RoundsTo (withSign negative (quotient num den)) negative (ofQuotient negative num den) := by
  have hAbs : |withSign negative (quotient num den)| = quotient num den := by
    rw [abs_withSign, abs_of_nonneg (quotient_nonneg num den)]
  by_cases hFinite : quotient num den < overflow
  · have hRepresentable := (representable_nearest_iff hDen).mpr hFinite
    have hRounded : ofQuotient negative num den =
        .finite negative (nearest num den) hRepresentable := by
      rw [ofQuotient, ofUnits, dif_pos hRepresentable]
    rw [hRounded]
    refine ⟨fun hOverflow => ?_, fun _ => ⟨_, _, rfl⟩, fun _ other hOther => ?_,
      fun _ other hOther hNear hApart => ?_⟩
    · rw [hAbs] at hOverflow
      exact absurd hFinite (not_lt.mpr hOverflow)
    · exact abs_nearest_sub_le_abs_number_sub negative num hDen hOther
    · exact two_mul_dvd_nearest_of_number negative num hDen hOther hNear hApart
  · have hGreat := mt (representable_nearest_iff hDen).mp hFinite
    have hRounded : ofQuotient negative num den = .infinite negative := by
      rw [ofQuotient, ofUnits, dif_neg hGreat]
    rw [hRounded]
    refine ⟨fun _ => rfl, ?_, ?_, ?_⟩ <;>
    · intro hLess
      rw [hAbs] at hLess
      exact absurd hLess hFinite

end Distance

section Unique

/-- Between two magnitudes with even last digits there is one with an odd one. -/
theorem exists_between {units units' : Nat} (h : Representable units)
    (h' : Representable units') (hEven : 2 * twoPow (lastPlace units) ∣ units)
    (hEven' : 2 * twoPow (lastPlace units') ∣ units') (hLess : units < units') :
    ∃ middle, Representable middle ∧ units < middle ∧ middle < units' := by
  have hPlace := twoPow_pos (lastPlace units)
  have hFiner := Nat.pow_dvd_pow 2 (lastPlace_mono (Nat.le_of_lt hLess))
  have hReach : units + twoPow (lastPlace units) ≤ units' :=
    add_le_of_dvd h.2 (Nat.dvd_trans hFiner h'.2) hLess
  obtain ⟨half, hHalf⟩ := hEven
  have hNext : units + twoPow (lastPlace units) = twoPow (lastPlace units) * (2 * half + 1) := by
    rw [Nat.mul_succ, Nat.mul_left_comm, ← Nat.mul_assoc, ← hHalf]
  have hFew : 2 * half + 1 < twoPow 53 := by
    have hDigits : twoPow (lastPlace units) * (2 * half) < twoPow (lastPlace units) * twoPow 53 :=
      calc twoPow (lastPlace units) * (2 * half) = units := by
            rw [Nat.mul_left_comm, ← Nat.mul_assoc, ← hHalf]
        _ < twoPow 53 * twoPow (lastPlace units) := lt_mul_place units
        _ = twoPow (lastPlace units) * twoPow 53 := Nat.mul_comm ..
    have hTwo : twoPow 53 = 2 * 4503599627370496 := by decide
    have hLess := Nat.lt_of_mul_lt_mul_left hDigits
    omega
  have hFormat := twoPow_lastPlace_dvd_mul hFew (lastPlace units)
  rw [← hNext] at hFormat
  refine ⟨_, ⟨Nat.lt_of_le_of_lt hReach h'.1, hFormat⟩, by omega, ?_⟩
  refine Nat.lt_of_le_of_ne hReach fun hEq => ?_
  have hTwice := Nat.dvd_trans (Nat.mul_dvd_mul_left 2 hFiner) hEven'
  rw [← hEq, hNext, Nat.mul_comm 2] at hTwice
  have hOdd : 2 ∣ 2 * half + 1 := Nat.dvd_of_mul_dvd_mul_left hPlace hTwice
  omega

theorem abs_withSign_sub_right (negative : Bool) (a q : ℚ) :
    |withSign negative a - q| = |a - withSign negative q| := by
  cases negative
  · rfl
  · show |-a - q| = |a - -q|
    rw [← abs_neg, neg_sub, sub_neg_eq_add, sub_neg_eq_add, add_comm]

/-- What lies between two numbers is nearer to the middle of them. -/
theorem abs_sub_lt_of_between {a b c q : ℚ} (hab : a < b) (hbc : b < c)
    (h : |a - q| = |c - q|) : |b - q| < |a - q| := by
  rcases abs_eq_abs.mp h with hSame | hOpposite
  · exact absurd (sub_left_inj.mp hSame) (ne_of_lt (hab.trans hbc))
  · have hBelow : a - q < 0 := by linarith
    rw [abs_of_neg hBelow]
    exact abs_lt.mpr ⟨by linarith, by linarith⟩

theorem div_one_lt {units units' : Nat} (h : units < units') :
    (units : ℚ) / one < (units' : ℚ) / one :=
  div_lt_div_of_pos_right (Nat.cast_lt.mpr h) (Nat.cast_pos.mpr one_units_pos)

theorem RoundsTo.not_units_lt {q : ℚ} {negative : Bool} {units units' : Nat}
    {hUnits : Representable units} {hUnits' : Representable units'}
    (h : RoundsTo q negative (.finite negative units hUnits))
    (h' : RoundsTo q negative (.finite negative units' hUnits')) (hFinite : |q| < overflow) :
    ¬ units < units' := by
  intro hLess
  have hNear := le_antisymm (h.nearest hFinite _ rfl) (h'.nearest hFinite _ rfl)
  have hApart : withSign negative (units / one) ≠ withSign negative (units' / one) := fun hSame =>
    ne_of_lt (div_one_lt hLess) (withSign_injective negative hSame)
  have hEven := h.even hFinite _ rfl hNear.symm hApart.symm
  have hEven' := h'.even hFinite _ rfl hNear hApart
  obtain ⟨middle, hMiddle, hLow, hHigh⟩ := exists_between hUnits hUnits' hEven hEven' hLess
  have hMiddleNear := h.nearest hFinite (.finite negative middle hMiddle) rfl
  simp only [number, abs_withSign_sub_right] at hNear hMiddleNear
  exact not_lt.mpr hMiddleNear (abs_sub_lt_of_between (div_one_lt hLow) (div_one_lt hHigh) hNear)

/-- A rational number has one rounding only. -/
theorem RoundsTo.unique {q : ℚ} {negative : Bool} {b b' : Binary64} (h : RoundsTo q negative b)
    (h' : RoundsTo q negative b') : b = b' := by
  rcases le_or_gt (overflow : ℚ) |q| with hGreat | hFinite
  · rw [h.infinite hGreat, h'.infinite hGreat]
  obtain ⟨units, hUnits, rfl⟩ := h.finite hFinite
  obtain ⟨units', hUnits', rfl⟩ := h'.finite hFinite
  obtain rfl : units = units' :=
    Nat.le_antisymm (Nat.le_of_not_lt (h'.not_units_lt h hFinite))
      (Nat.le_of_not_lt (h.not_units_lt h' hFinite))
  rfl

end Unique

end KeypadCalculator.Binary64
