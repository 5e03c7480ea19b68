import KeypadCalculator.Display
import KeypadCalculator.Proofs.Binary64.Decimal

/-!
A settled text is read again as a number, so its preview is never the error text.
-/

namespace KeypadCalculator

open Binary64

/-- The error text has no numeral in front. -/
theorem ne_errorText_of_leading? {text : List Char} {value : Binary64}
    (h : leading? text = some value) : text ≠ errorText := by
  rintro rfl
  have hNone : leading? errorText = none := by decide
  rw [hNone] at h
  cases h

/-- The bounds of positional notation keep a rounded magnitude within the format. -/
theorem representable_twelvePlaces {units : Nat} (h : settlesScientific units = false) :
    Representable (twelvePlaces units) := by
  have hUnits : units ≤ tenPow 15 * one := by
    simp only [settlesScientific, Bool.or_eq_false_iff, decide_eq_false_iff_not] at h
    exact Nat.le_of_not_lt h.1
  have hProduct : nearest (units * tenPow 12) 1 ≤ twoPow 1164 := by
    refine nearest_le (by decide) (twoPow_lastPlace_dvd 1164) ?_
    exact Nat.le_trans (Nat.mul_le_mul_right _ hUnits) (by decide +kernel)
  have hRounded : roundHalfUp (nearest (units * tenPow 12) 1) ≤ twoPow 91 := by
    refine Nat.le_trans (Nat.div_le_div_right (Nat.add_le_add_right hProduct _)) ?_
    decide +kernel
  have hBound : twelvePlaces units ≤ twoPow 1165 := by
    refine nearest_le (tenPow_pos 12) (twoPow_lastPlace_dvd 1165) ?_
    exact Nat.le_trans (Nat.mul_le_mul_right _ hRounded) (by decide +kernel)
  exact representable_nearest (tenPow_pos 12) (Nat.lt_of_le_of_lt hBound (by decide +kernel))

theorem ne_zero_of_settlesScientific {units : Nat} (h : settlesScientific units = true) :
    units ≠ 0 := by
  rintro rfl
  simp [settlesScientific] at h

theorem ne_zero_of_previewsScientific {units : Nat} (h : previewsScientific units = true) :
    units ≠ 0 := by
  rintro rfl
  simp [previewsScientific] at h

theorem exists_leading?_scientific {units : Nat} (negative : Bool) (h : Representable units)
    (hSome : units ≠ 0) :
    ∃ value, leading? (signed negative (scientific units)) = some value ∧
      value.isFinite = true :=
  ⟨_, leading?_scientific negative hSome,
    isFinite_ofQuotient unitExpansion_pos representable_greatest
      (scientificExpansion_le h hSome)⟩

/-- A settled text other than `0` begins with a finite number. -/
theorem exists_leading?_settledText {value : Binary64} (h : value.isFinite = true) :
    settledText value = ['0'] ∨
      ∃ shown, leading? (settledText value) = some shown ∧ shown.isFinite = true := by
  cases value with
  | infinite negative => cases h
  | notANumber => cases h
  | finite negative units hUnits =>
      simp only [settledText]
      split
      · rename_i hScientific
        exact .inr (exists_leading?_scientific negative hUnits
          (ne_zero_of_settlesScientific hScientific))
      · rename_i hPositional
        have hRounded := representable_twelvePlaces (Bool.eq_false_iff.mpr hPositional)
        split
        · exact .inl rfl
        · exact .inr ⟨_, Decimal.leading?_shortest negative hRounded.2,
            isFinite_ofUnits hRounded⟩

theorem settledText_ne_errorText {value : Binary64} (h : value.isFinite = true) :
    settledText value ≠ errorText := by
  rcases exists_leading?_settledText h with hZero | ⟨shown, hShown, -⟩
  · rw [hZero]
    decide
  · exact ne_errorText_of_leading? hShown

/-- A finite number is never previewed as an error. -/
theorem previewNumber_ne_errorText {value : Binary64} (h : value.isFinite = true) :
    previewNumber value ≠ errorText := by
  cases value with
  | infinite negative => cases h
  | notANumber => cases h
  | finite negative units hUnits =>
      simp only [previewNumber]
      split
      · rename_i hScientific
        obtain ⟨shown, hShown, -⟩ := exists_leading?_scientific negative hUnits
          (ne_zero_of_previewsScientific hScientific)
        exact ne_errorText_of_leading? hShown
      · split
        · decide
        · exact ne_errorText_of_leading? (Decimal.leading?_shortest negative hUnits.2)

theorem previewText_settledText_ne_errorText {value : Binary64} (h : value.isFinite = true) :
    previewText (settledText value) ≠ errorText := by
  rcases exists_leading?_settledText h with hZero | ⟨shown, hShown, hFinite⟩
  · rw [hZero]
    decide
  · have hText := settledText_ne_errorText h
    rw [previewText]
    split
    · exact hText
    · simp only [hShown]
      exact previewNumber_ne_errorText hFinite

end KeypadCalculator
