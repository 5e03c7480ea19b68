import KeypadCalculator.Proofs.Binary64.SevenDigits
import KeypadCalculator.Proofs.Display.Settled
import KeypadCalculator.Proofs.Display.TwelvePlaces

/-!
Shown texts, read and shown again. Scientific notation comes back as it is, because the
number read from it has the same seven digits, unless that number is a bound of the notation:
the bounds themselves are shown with all their digits. A text with all digits is read as the
number that was shown, so that a preview comes back, and a settled text does unless its
twelve places settle upwards.
-/

namespace KeypadCalculator

open Binary64 Text

/-- The only letter in a numeral is that of its power of ten. -/
theorem Numeral.letter_mem_text_iff {n : Numeral} (h : n.isAscii = true) :
    'e' ∈ n.text ↔ n.power ≠ [] := by
  simp only [Numeral.isAscii, Bool.and_eq_true, List.all_eq_true] at h
  obtain ⟨⟨hWhole, hFraction⟩, -⟩ := h
  have hLetter : isAsciiDigit 'e' ≠ true := by decide
  have hPointed : 'e' ∉ pointed n.fraction := by
    rw [pointed]
    split
    · exact List.not_mem_nil
    · simpa using fun hMem => hLetter (hFraction _ hMem)
  have hSigned : 'e' ∈ n.text ↔
      'e' ∈ n.whole ++ (pointed n.fraction ++ powerText n.negativePower n.power) := by
    rw [Numeral.text, signed]
    split <;> simp
  rw [hSigned, List.mem_append, List.mem_append, or_iff_right fun hMem => hLetter (hWhole _ hMem),
    or_iff_right hPointed, powerText]
  cases n.power with
  | nil => simp
  | cons d rest => simp

theorem letter_mem_scientific (negative : Bool) (units : Nat) :
    'e' ∈ signed negative (scientific units) := by
  rw [scientific_eq, signed_scientificText,
    Numeral.letter_mem_text_iff (isAscii_scientificNumeral _ negative)]
  exact Nat.toDigits_ne_nil

theorem letter_not_mem_positional (d : Decimal) (negative : Bool) :
    'e' ∉ signed negative d.positional := by
  rw [d.signed_positional, Numeral.letter_mem_text_iff (d.isAscii_numeral negative)]
  intro hPower
  apply hPower
  rw [Decimal.numeral]
  split <;> rfl

theorem units_eq_of_ofUnits_eq {negative negative' : Bool} {units units' : Nat}
    (hUnits : Representable units) (h : ofUnits negative units = ofUnits negative' units') :
    units = units' := by
  rw [ofUnits, dif_pos hUnits, ofUnits] at h
  split at h
  · cases h
    rfl
  · cases h

/-- A magnitude with all its digits. Zero has no sign. -/
def plainText (negative : Bool) (units : Nat) : List Char :=
  if units = 0 then ['0'] else signed negative (Decimal.shortest units).positional

theorem plainText_zero (negative : Bool) : plainText negative 0 = ['0'] :=
  if_pos rfl

theorem leading?_zero : leading? ['0'] = some Binary64.zero := by
  decide +kernel

theorem letter_not_mem_plainText (negative : Bool) (units : Nat) :
    'e' ∉ plainText negative units := by
  rw [plainText]
  split
  · decide
  · exact letter_not_mem_positional _ negative

/-- All digits are read as the magnitude that they show, with a sign that shows the same. -/
theorem exists_leading?_plainText (negative : Bool) {units : Nat}
    (h : twoPow (lastPlace units) ∣ units) :
    ∃ negative', leading? (plainText negative units) = some (ofUnits negative' units) ∧
      plainText negative' units = plainText negative units := by
  by_cases hZero : units = 0
  · rw [hZero, plainText_zero]
    exact ⟨false, leading?_zero, plainText_zero false⟩
  · refine ⟨negative, ?_, rfl⟩
    rw [plainText, if_neg hZero, Decimal.leading?_shortest negative h]

theorem units_eq_of_plainText_eq {negative negative' : Bool} {units units' : Nat}
    (hUnits : Representable units) (hUnits' : Representable units')
    (h : plainText negative units = plainText negative' units') : units = units' := by
  obtain ⟨_, hRead, -⟩ := exists_leading?_plainText negative hUnits.2
  obtain ⟨_, hRead', -⟩ := exists_leading?_plainText negative' hUnits'.2
  rw [h, hRead'] at hRead
  exact (units_eq_of_ofUnits_eq hUnits' (Option.some.inj hRead)).symm

/-- The bounds outside of which magnitudes are in scientific notation, each with its own text
in that notation, from which it is read again. -/
structure Bounds where
  below : Nat
  above : Nat
  belowText : String
  aboveText : String
  below_pos : 0 < below
  below_le_above : below ≤ above
  sevenRead_below : sevenRead below = below
  sevenRead_above : sevenRead above = above
  scientific_below : scientific below = belowText.toList
  scientific_above : scientific above = aboveText.toList

/-- The bounds of a settled result. -/
def settledBounds : Bounds where
  below := nearest one (tenPow 10)
  above := tenPow 15 * one
  belowText := "1.000000e-10"
  aboveText := "1.000000e+15"
  below_pos := by decide +kernel
  below_le_above := by decide +kernel
  sevenRead_below := by decide +kernel
  sevenRead_above := by decide +kernel
  scientific_below := by decide +kernel
  scientific_above := by decide +kernel

/-- The bounds of a preview. -/
def previewBounds : Bounds where
  below := nearest one (tenPow 6)
  above := tenPow 12 * one
  belowText := "1.000000e-6"
  aboveText := "1.000000e+12"
  below_pos := by decide +kernel
  below_le_above := by decide +kernel
  sevenRead_below := by decide +kernel
  sevenRead_above := by decide +kernel
  scientific_below := by decide +kernel
  scientific_above := by decide +kernel

namespace Bounds

variable (bounds : Bounds) {units : Nat}

/-- A magnitude outside of the bounds; zero is not. -/
def excludes (units : Nat) : Bool :=
  bounds.above < units || (units != 0 && units < bounds.below)

/-- The scientific notation of the bounds, with either sign. -/
def texts : List (List Char) :=
  [bounds.belowText.toList, bounds.aboveText.toList,
    '-' :: bounds.belowText.toList, '-' :: bounds.aboveText.toList]

theorem mem_texts_iff {text : List Char} :
    text ∈ bounds.texts ↔ ∃ negative, text = signed negative (scientific bounds.below) ∨
      text = signed negative (scientific bounds.above) := by
  rw [bounds.scientific_below, bounds.scientific_above]
  simp only [texts, List.mem_cons, List.not_mem_nil, Bool.exists_bool, signed, Bool.false_eq_true,
    if_false, if_true, or_false, or_assoc]

theorem excludes_zero : bounds.excludes 0 = false := by
  simp [excludes]

theorem ne_zero_of_excludes (h : bounds.excludes units = true) : units ≠ 0 := by
  rintro rfl
  rw [excludes_zero] at h
  cases h

theorem excludes_eq_false_iff (hSome : units ≠ 0) :
    bounds.excludes units = false ↔ bounds.below ≤ units ∧ units ≤ bounds.above := by
  simp only [excludes, Bool.or_eq_false_iff, Bool.and_eq_false_iff, decide_eq_false_iff_not,
    bne_eq_false_iff_eq, hSome, false_or, Nat.not_lt]
  exact and_comm

/-- The number read from the scientific notation of an excluded magnitude is excluded as
well, or it is a bound: seven digits keep the order. -/
theorem sevenRead_eq_of_excludes (h : bounds.excludes units = true)
    (hFormat : twoPow (lastPlace units) ∣ units)
    (hRead : bounds.excludes (sevenRead units) = false) :
    sevenRead units = bounds.below ∨ sevenRead units = bounds.above := by
  have hSome := bounds.ne_zero_of_excludes h
  obtain ⟨hLow, hHigh⟩ :=
    (bounds.excludes_eq_false_iff (sevenRead_ne_zero hFormat hSome)).1 hRead
  simp only [excludes, Bool.or_eq_true, Bool.and_eq_true, decide_eq_true_eq] at h
  rcases h with hAbove | ⟨-, hBelow⟩
  · have hMono := sevenRead_mono (Nat.ne_of_gt
      (Nat.lt_of_lt_of_le bounds.below_pos bounds.below_le_above)) (Nat.le_of_lt hAbove)
    rw [bounds.sevenRead_above] at hMono
    exact .inr (Nat.le_antisymm hHigh hMono)
  · have hMono := sevenRead_mono hSome (Nat.le_of_lt hBelow)
    rw [bounds.sevenRead_below] at hMono
    exact .inl (Nat.le_antisymm hMono hLow)

theorem sevenRead_eq_of_text_eq {negative negative' : Bool} {bound : Nat}
    (hUnits : Representable units) (hSome : units ≠ 0) (hBound : bound ≠ 0)
    (h : signed negative (scientific units) = signed negative' (scientific bound)) :
    sevenRead units = sevenRead bound := by
  have hRead := leading?_scientific negative hSome
  rw [h, leading?_scientific negative' hBound] at hRead
  exact units_eq_of_ofUnits_eq (representable_sevenRead hUnits hSome)
    (Option.some.inj hRead).symm

/-- The text of an excluded magnitude is that of a bound if the number read from it is not
excluded. -/
theorem text_mem_texts_iff (hUnits : Representable units) (h : bounds.excludes units = true)
    (negative : Bool) : signed negative (scientific units) ∈ bounds.texts ↔
      bounds.excludes (sevenRead units) = false := by
  have hSome := bounds.ne_zero_of_excludes h
  have hBelow := bounds.below_pos
  have hOrder := bounds.below_le_above
  rw [mem_texts_iff]
  constructor
  · rintro ⟨negative', hText | hText⟩
    · rw [sevenRead_eq_of_text_eq hUnits hSome (by omega) hText, bounds.sevenRead_below,
        bounds.excludes_eq_false_iff (by omega)]
      exact ⟨Nat.le_refl _, hOrder⟩
    · rw [sevenRead_eq_of_text_eq hUnits hSome (by omega) hText, bounds.sevenRead_above,
        bounds.excludes_eq_false_iff (by omega)]
      exact ⟨hOrder, Nat.le_refl _⟩
  · intro hRead
    have hAgain := scientific_sevenRead hUnits.2 hSome
    rcases bounds.sevenRead_eq_of_excludes h hUnits.2 hRead with hBound | hBound
    · rw [hBound] at hAgain
      exact ⟨negative, .inl (congrArg (signed negative) hAgain.symm)⟩
    · rw [hBound] at hAgain
      exact ⟨negative, .inr (congrArg (signed negative) hAgain.symm)⟩

/-- A magnitude in the notation of the bounds, where it is shown with other digits inside of
them. -/
def text (negative : Bool) (units shown : Nat) : List Char :=
  if bounds.excludes units then signed negative (scientific units) else plainText negative shown

/-- Scientific notation comes back unless it is that of a bound. -/
theorem text_sevenRead_iff (hUnits : Representable units) (h : bounds.excludes units = true)
    (negative : Bool) (shown : Nat) :
    bounds.text negative (sevenRead units) shown = signed negative (scientific units) ↔
      signed negative (scientific units) ∉ bounds.texts := by
  rw [bounds.text_mem_texts_iff hUnits h, Bool.not_eq_false, text,
    scientific_sevenRead hUnits.2 (bounds.ne_zero_of_excludes h)]
  split
  · rename_i hAgain
    exact iff_of_true rfl hAgain
  · rename_i hPlain
    refine iff_of_false (fun hText => ?_) hPlain
    exact letter_not_mem_plainText negative shown (hText ▸ letter_mem_scientific negative units)

theorem letter_mem_of_mem_texts {text : List Char} (h : text ∈ bounds.texts) : 'e' ∈ text := by
  obtain ⟨negative, rfl | rfl⟩ := bounds.mem_texts_iff.1 h
  · exact letter_mem_scientific negative _
  · exact letter_mem_scientific negative _

end Bounds

/-- An excluded magnitude is read from its scientific notation as a finite number. -/
theorem Bounds.leading?_scientific_excluded (bounds : Bounds) {units : Nat}
    (hUnits : Representable units) (h : bounds.excludes units = true) (negative : Bool) :
    ∃ hRead : Representable (sevenRead units),
      leading? (signed negative (scientific units)) =
        some (.finite negative (sevenRead units) hRead) := by
  have hSome := bounds.ne_zero_of_excludes h
  refine ⟨representable_sevenRead hUnits hSome, ?_⟩
  rw [leading?_scientific negative hSome, ofQuotient, ← sevenRead, ofUnits_eq_finite]

section Settled

variable {units : Nat}

theorem settledText_finite (negative : Bool) (h : Representable units) :
    settledText (.finite negative units h) =
      settledBounds.text negative units (twelvePlaces units) :=
  rfl

theorem settlesScientific_eq (units : Nat) :
    settlesScientific units = settledBounds.excludes units :=
  rfl

theorem twelvePlaces_below : twelvePlaces settledBounds.below = settledBounds.below := by
  decide +kernel

theorem twelvePlaces_above : twelvePlaces settledBounds.above = settledBounds.above := by
  decide +kernel

/-- Rounding to twelve places does not leave the bounds. -/
theorem excludes_twelvePlaces (h : settledBounds.excludes units = false) :
    settledBounds.excludes (twelvePlaces units) = false := by
  have hNone : twelvePlaces 0 = 0 := by decide +kernel
  by_cases hZero : units = 0
  · rw [hZero, hNone, Bounds.excludes_zero]
  · obtain ⟨hLow, hHigh⟩ := (settledBounds.excludes_eq_false_iff hZero).1 h
    have hLow' := twelvePlaces_mono hLow
    have hHigh' := twelvePlaces_mono hHigh
    rw [twelvePlaces_below] at hLow'
    rw [twelvePlaces_above] at hHigh'
    have hSome : twelvePlaces units ≠ 0 :=
      Nat.ne_of_gt (Nat.lt_of_lt_of_le settledBounds.below_pos hLow')
    exact (settledBounds.excludes_eq_false_iff hSome).2 ⟨hLow', hHigh'⟩

/-- Only magnitudes within the bounds settle upwards. -/
theorem SettlesUpwards.excludes_eq_false (h : SettlesUpwards units) :
    settledBounds.excludes units = false := by
  obtain ⟨hLow, hHigh⟩ := h.location
  have hBelow : settledBounds.below < 4096 * one := by decide +kernel
  have hAbove : 4504 * one ≤ settledBounds.above := by decide +kernel
  refine Bool.eq_false_iff.2 fun hExcluded => ?_
  simp only [Bounds.excludes, Bool.or_eq_true, Bool.and_eq_true, decide_eq_true_eq] at hExcluded
  rcases hExcluded with hMore | ⟨-, hLess⟩
  · have hMono := twelvePlaces_mono (Nat.le_of_lt hMore)
    rw [twelvePlaces_above] at hMono
    omega
  · have hMono := twelvePlaces_mono (Nat.le_of_lt hLess)
    rw [twelvePlaces_below] at hMono
    omega

theorem settledText_excluded_again (hUnits : Representable units) (negative : Bool)
    (h : settledBounds.excludes units = true) :
    ∃ shown, leading? (signed negative (scientific units)) = some shown ∧
      (settledText shown = signed negative (scientific units) ↔
        signed negative (scientific units) ∉ settledBounds.texts) := by
  obtain ⟨hRead, hLeading⟩ := settledBounds.leading?_scientific_excluded hUnits h negative
  exact ⟨_, hLeading, settledBounds.text_sevenRead_iff hUnits h negative _⟩

theorem settledText_plain_again (negative : Bool)
    (h : settledBounds.excludes units = false) :
    ∃ shown, leading? (plainText negative (twelvePlaces units)) = some shown ∧
      (settledText shown = plainText negative (twelvePlaces units) ↔ ¬ SettlesUpwards units) := by
  have hWithin := excludes_twelvePlaces h
  have hRounded : Representable (twelvePlaces units) :=
    representable_twelvePlaces (settlesScientific_eq units ▸ h)
  have hAgain : Representable (twelvePlaces (twelvePlaces units)) :=
    representable_twelvePlaces (settlesScientific_eq (twelvePlaces units) ▸ hWithin)
  obtain ⟨negative', hRead, hSame⟩ := exists_leading?_plainText negative hRounded.2
  refine ⟨_, hRead, ?_⟩
  rw [ofUnits_eq_finite hRounded, settledText_finite, Bounds.text,
    if_neg (Bool.eq_false_iff.1 hWithin), ← twelvePlaces_twelvePlaces_iff]
  constructor
  · intro hText
    exact units_eq_of_plainText_eq hAgain hRounded hText
  · intro hRound
    rw [hRound]
    exact hSame

end Settled

section Preview

theorem previewNumber_finite (negative : Bool) {units : Nat} (h : Representable units) :
    previewNumber (.finite negative units h) = previewBounds.text negative units units :=
  rfl

theorem previewNumber_zero : previewNumber Binary64.zero = ['0'] := by
  rw [Binary64.zero, ofUnits_eq_finite representable_zero, previewNumber_finite, Bounds.text,
    previewBounds.excludes_zero, if_neg Bool.false_ne_true, plainText_zero]

theorem previewText_of_leading? {text : List Char} {value : Binary64}
    (h : leading? text = some value) : previewText text = previewNumber value := by
  have hError := ne_errorText_of_leading? h
  by_cases hZero : text = ['0']
  · rw [hZero, leading?_zero] at h
    rw [hZero, ← Option.some.inj h, previewNumber_zero]
    rfl
  · simp only [previewText, hError, hZero, decide_false, Bool.or_self, Bool.false_eq_true,
      if_false, h]

theorem previewText_of_leading?_eq_none {text : List Char} (h : leading? text = none) :
    previewText text = errorText := by
  have hZero : text ≠ ['0'] := by
    rintro rfl
    rw [leading?_zero] at h
    cases h
  by_cases hError : text = errorText
  · rw [hError]
    decide
  · simp only [previewText, hError, hZero, decide_false, Bool.or_self, Bool.false_eq_true,
      if_false, h]

theorem previewText_errorText : previewText errorText = errorText := by
  decide

/-- A shown preview comes back unless it is the scientific notation of a bound. -/
theorem previewText_previewNumber_iff (value : Binary64) :
    previewText (previewNumber value) = previewNumber value ↔
      previewNumber value ∉ previewBounds.texts := by
  have hError : errorText ∉ previewBounds.texts := fun hMem =>
    absurd (previewBounds.letter_mem_of_mem_texts hMem) (by decide)
  cases value with
  | infinite negative => exact iff_of_true previewText_errorText hError
  | notANumber => exact iff_of_true previewText_errorText hError
  | finite negative units hUnits =>
      rw [previewNumber_finite, Bounds.text]
      split
      · rename_i hExcluded
        obtain ⟨hRead, hLeading⟩ :=
          previewBounds.leading?_scientific_excluded hUnits hExcluded negative
        rw [previewText_of_leading? hLeading, previewNumber_finite]
        exact previewBounds.text_sevenRead_iff hUnits hExcluded negative _
      · rename_i hWithin
        obtain ⟨negative', hLeading, hSame⟩ := exists_leading?_plainText negative hUnits.2
        refine iff_of_true ?_ fun hMem => ?_
        · rw [previewText_of_leading? hLeading, ofUnits_eq_finite hUnits, previewNumber_finite,
            Bounds.text, if_neg hWithin, hSame]
        · exact letter_not_mem_plainText negative units
            (previewBounds.letter_mem_of_mem_texts hMem)

theorem exists_previewText_eq (text : List Char) :
    ∃ value, previewText text = previewNumber value := by
  cases h : leading? text with
  | none => exact ⟨.notANumber, previewText_of_leading?_eq_none h⟩
  | some value => exact ⟨value, previewText_of_leading? h⟩

end Preview

/-- What is shown comes back when it is read and shown again, unless it is the scientific
notation of a bound or, for a settled number between 4096 and 4504, its twelve places settle
upwards. -/
theorem shown_again_iff (negative : Bool) {units : Nat} (hUnits : Representable units)
    (text : List Char) :
    (∃ shown, leading? (settledText (.finite negative units hUnits)) = some shown ∧
      (settledText shown = settledText (.finite negative units hUnits) ↔
        settledText (.finite negative units hUnits) ∉ settledBounds.texts ∧
          ¬ SettlesUpwards units)) ∧
    (SettlesUpwards units →
      4096 * one ≤ twelvePlaces units ∧ twelvePlaces units < 4504 * one) ∧
    (previewText (previewText text) = previewText text ↔
      previewText text ∉ previewBounds.texts) := by
  refine ⟨?_, SettlesUpwards.location, ?_⟩
  · rw [settledText_finite, Bounds.text]
    split
    · rename_i hExcluded
      obtain ⟨shown, hRead, hAgain⟩ := settledText_excluded_again hUnits negative hExcluded
      have hFinal : ¬ SettlesUpwards units := fun hUp => by
        rw [hUp.excludes_eq_false] at hExcluded
        cases hExcluded
      exact ⟨shown, hRead, hAgain.trans (and_iff_left hFinal).symm⟩
    · rename_i hWithin
      obtain ⟨shown, hRead, hAgain⟩ :=
        settledText_plain_again negative (Bool.eq_false_iff.2 hWithin)
      have hNotation : plainText negative (twelvePlaces units) ∉ settledBounds.texts := fun hMem =>
        letter_not_mem_plainText negative _ (settledBounds.letter_mem_of_mem_texts hMem)
      exact ⟨shown, hRead, hAgain.trans (and_iff_right hNotation).symm⟩
  · obtain ⟨value, hText⟩ := exists_previewText_eq text
    rw [hText]
    exact previewText_previewNumber_iff value

theorem representable_quarters : Representable (9 * twoPow 1072) :=
  representable_of_digits (by decide) (by decide)

/-- The settled text of `-2.25` and the preview of `2.500` come back. -/
theorem shown_again_quarters :
    (∃ shown, leading? (settledText (.finite true _ representable_quarters)) = some shown ∧
      settledText shown = settledText (.finite true _ representable_quarters)) ∧
    previewText (previewText "2.500".toList) = previewText "2.500".toList := by
  obtain ⟨⟨shown, hRead, hSettled⟩, -, hPreview⟩ :=
    shown_again_iff true representable_quarters "2.500".toList
  exact ⟨⟨shown, hRead, hSettled.2 (by decide +kernel)⟩, hPreview.2 (by decide +kernel)⟩

/-- A text with all digits that settles upwards, and the scientific notation of a bound for
each of the two displays: none of them comes back. -/
theorem shown_again_changes :
    (settledText (ofBits 0x40b0def9645736e5) = "4318.974187327292".toList ∧
      leading? "4318.974187327292".toList = some (ofBits 0x40b0def9645736e6) ∧
      settledText (ofBits 0x40b0def9645736e6) = "4318.974187327293".toList) ∧
    (settledText (ofUnits false ((tenPow 15 + 1) * one)) = "1.000000e+15".toList ∧
      leading? "1.000000e+15".toList = some (ofUnits false (tenPow 15 * one)) ∧
      settledText (ofUnits false (tenPow 15 * one)) = "1000000000000000".toList) ∧
    previewText "1000000000001".toList = "1.000000e+12".toList ∧
    previewText "1.000000e+12".toList = "1000000000000".toList := by
  decide +kernel

end KeypadCalculator
