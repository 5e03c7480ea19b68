import KeypadCalculator.Proofs.Token.Characters

/-!
Which texts are numerals, and which of them stands at the front of a text. A numeral is
digits with at most one point among them, with a sign in front and a power of ten behind,
both of which may be left out. The reader takes the longest one that there is.
-/

namespace KeypadCalculator

open Text

/-- The longest text with a property that another text begins with. -/
structure LongestPrefix (P : List Char → Prop) (text front : List Char) : Prop where
  holds : P front
  begins : front <+: text
  longest : ∀ other, P other → other <+: text → other.length ≤ front.length

theorem LongestPrefix.unique {P : List Char → Prop} {text front front' : List Char}
    (h : LongestPrefix P text front) (h' : LongestPrefix P text front') : front = front' :=
  (List.prefix_of_prefix_length_le h.begins h'.begins
    (h'.longest front h.holds h.begins)).eq_of_length
    (Nat.le_antisymm (h'.longest front h.holds h.begins) (h.longest front' h'.holds h'.begins))

namespace Numeral

/-- A row of decimal digits, of any script. -/
def AllDecimal (digits : List Char) : Prop :=
  ∀ c ∈ digits, isDecimalDigit c = true

instance (digits : List Char) : Decidable (AllDecimal digits) :=
  decidable_of_iff (digits.all isDecimalDigit = true) List.all_eq_true

/-- A sign, which may be left out. -/
inductive SignText : Bool → List Char → Prop where
  | none : SignText false []
  | plus : SignText false ['+']
  | minus : SignText true ['-']

/-- Digits, with a point among them or next to them or without one. -/
inductive MantissaText : List Char → List Char → List Char → Prop where
  | plain {whole : List Char} (hWhole : AllDecimal whole) (hSome : whole ≠ []) :
      MantissaText whole [] whole
  | pointed {whole fraction : List Char} (hWhole : AllDecimal whole)
      (hFraction : AllDecimal fraction) (hSome : whole ≠ [] ∨ fraction ≠ []) :
      MantissaText whole fraction (whole ++ '.' :: fraction)

/-- A power of ten, which may be left out. -/
inductive PowerText : Bool → List Char → List Char → Prop where
  | none : PowerText false [] []
  | power {letter : Char} {negative : Bool} {signText digits : List Char}
      (hLetter : letter = 'e' ∨ letter = 'E') (hSign : SignText negative signText)
      (hDigits : AllDecimal digits) (hSome : digits ≠ []) :
      PowerText negative digits (letter :: (signText ++ digits))

/-- A text writes a numeral. -/
inductive Writes (n : Numeral) : List Char → Prop where
  | intro {signText mantissaText powerText : List Char} (hSign : SignText n.negative signText)
      (hMantissa : MantissaText n.whole n.fraction mantissaText)
      (hPower : PowerText n.negativePower n.power powerText) :
      Writes n (signText ++ (mantissaText ++ powerText))

/-- A text is a numeral. -/
def IsText (text : List Char) : Prop :=
  ∃ n : Numeral, n.Writes text

theorem MantissaText.writes {whole fraction mantissaText : List Char}
    (h : MantissaText whole fraction mantissaText) :
    Writes ⟨false, whole, fraction, false, []⟩ mantissaText := by
  have hWrites := Writes.intro (n := ⟨false, whole, fraction, false, []⟩) .none h .none
  rwa [List.append_nil] at hWrites

section Digits

variable {digits : List Char}

theorem AllDecimal.takeWhile_append (h : AllDecimal digits) (rest : List Char) :
    (digits ++ rest).takeWhile isDecimalDigit = digits ++ rest.takeWhile isDecimalDigit :=
  List.takeWhile_append_of_pos h

theorem AllDecimal.dropWhile_append (h : AllDecimal digits) (rest : List Char) :
    (digits ++ rest).dropWhile isDecimalDigit = rest.dropWhile isDecimalDigit :=
  List.dropWhile_append_of_pos h

theorem allDecimal_takeWhile (text : List Char) : AllDecimal (text.takeWhile isDecimalDigit) :=
  List.all_eq_true.mp List.all_takeWhile

theorem length_dropWhile_le (text : List Char) :
    (text.dropWhile isDecimalDigit).length ≤ text.length :=
  (List.dropWhile_sublist _).length_le

end Digits

section Sign

/-- The reader takes the sign that is there. -/
theorem SignText.sign_append {negative : Bool} {signText : List Char}
    (h : SignText negative signText) {c : Char} (hMinus : c ≠ '-') (hPlus : c ≠ '+')
    (rest : List Char) : sign (signText ++ c :: rest) = (negative, c :: rest) := by
  cases h with
  | none =>
      rw [List.nil_append, sign]
      · exact fun _ hEq => hMinus (List.cons.inj hEq).1
      · exact fun _ hEq => hPlus (List.cons.inj hEq).1
  | plus => rfl
  | minus => rfl

theorem exists_signText (text : List Char) :
    ∃ signText, SignText (sign text).1 signText ∧ text = signText ++ (sign text).2 := by
  rw [sign.eq_def]
  split
  · exact ⟨['-'], .minus, rfl⟩
  · exact ⟨['+'], .plus, rfl⟩
  · exact ⟨[], .none, rfl⟩

end Sign

section Mantissa

variable {text rest whole fraction : List Char}

theorem mantissa_of_point (h : text.dropWhile isDecimalDigit = '.' :: rest) :
    mantissa text =
      if text.takeWhile isDecimalDigit = [] ∧ rest.takeWhile isDecimalDigit = [] then none
      else some (text.takeWhile isDecimalDigit, rest.takeWhile isDecimalDigit,
        rest.dropWhile isDecimalDigit) := by
  simp only [mantissa, h, List.isEmpty_iff, Bool.and_eq_true]

theorem mantissa_of_no_point (h : (text.dropWhile isDecimalDigit).head? ≠ some '.') :
    mantissa text =
      if text.takeWhile isDecimalDigit = [] then none
      else some (text.takeWhile isDecimalDigit, [], text.dropWhile isDecimalDigit) := by
  simp only [mantissa]
  split
  · rename_i hPoint
    exact absurd (congrArg List.head? hPoint) h
  · simp only [List.isEmpty_iff]

/-- What is read as digits and a point is so. -/
theorem exists_mantissaText (h : mantissa text = some (whole, fraction, rest)) :
    ∃ mantissaText, MantissaText whole fraction mantissaText ∧ text = mantissaText ++ rest := by
  have hSplit := List.takeWhile_append_dropWhile (p := isDecimalDigit) (l := text)
  by_cases hPoint : (text.dropWhile isDecimalDigit).head? = some '.'
  · obtain ⟨behind, hDrop⟩ := List.head?_eq_some_iff.mp hPoint
    rw [mantissa_of_point hDrop] at h
    split at h
    · cases h
    · rename_i hSome
      cases h
      refine ⟨_, .pointed (allDecimal_takeWhile text) (allDecimal_takeWhile behind)
        (Classical.not_and_iff_not_or_not.mp hSome), ?_⟩
      rw [List.append_assoc, List.cons_append, List.takeWhile_append_dropWhile, ← hDrop, hSplit]
  · rw [mantissa_of_no_point hPoint] at h
    split at h
    · cases h
    · rename_i hSome
      cases h
      exact ⟨_, .plain (allDecimal_takeWhile text) hSome, hSplit.symm⟩

/-- Digits on both sides of a point are read on to the end of those behind it. -/
theorem mantissa_pointed (hWhole : AllDecimal whole) (hFraction : AllDecimal fraction)
    (hSome : whole ≠ [] ∨ fraction ≠ []) (rest : List Char) :
    mantissa (whole ++ '.' :: fraction ++ rest) =
      some (whole, fraction ++ rest.takeWhile isDecimalDigit,
        rest.dropWhile isDecimalDigit) := by
  have hPoint : isDecimalDigit '.' = false := by decide
  have hTake : (whole ++ '.' :: (fraction ++ rest)).takeWhile isDecimalDigit = whole := by
    rw [hWhole.takeWhile_append, List.takeWhile_cons_of_neg (by simp [hPoint]), List.append_nil]
  have hDrop : (whole ++ '.' :: (fraction ++ rest)).dropWhile isDecimalDigit =
      '.' :: (fraction ++ rest) := by
    rw [hWhole.dropWhile_append, List.dropWhile_cons_of_neg (by simp [hPoint])]
  have hNone : ¬ (whole = [] ∧ fraction ++ rest.takeWhile isDecimalDigit = []) := by
    rintro ⟨hNoWhole, hNoFraction⟩
    exact hSome.elim (absurd hNoWhole) (absurd (List.append_eq_nil_iff.mp hNoFraction).1)
  rw [List.append_assoc, List.cons_append, mantissa_of_point hDrop, hTake,
    hFraction.takeWhile_append, hFraction.dropWhile_append, if_neg hNone]

theorem dropWhile_eq_self (h : rest.takeWhile isDecimalDigit = []) :
    rest.dropWhile isDecimalDigit = rest := by
  simpa [h] using List.takeWhile_append_dropWhile (p := isDecimalDigit) (l := rest)

/-- Where the digits end, they are read exactly. -/
theorem MantissaText.mantissa_append {mantissaText : List Char}
    (h : MantissaText whole fraction mantissaText) (hStop : rest.takeWhile isDecimalDigit = [])
    (hPoint : rest.head? ≠ some '.') :
    mantissa (mantissaText ++ rest) = some (whole, fraction, rest) := by
  cases h with
  | plain hWhole hSome =>
      have hBehind : (whole ++ rest).dropWhile isDecimalDigit = rest := by
        rw [hWhole.dropWhile_append, dropWhile_eq_self hStop]
      rw [mantissa_of_no_point (by rwa [hBehind]), hBehind, hWhole.takeWhile_append, hStop,
        List.append_nil, if_neg hSome]
  | pointed hWhole hFraction hSome =>
      rw [mantissa_pointed hWhole hFraction hSome, hStop, dropWhile_eq_self hStop,
        List.append_nil]

/-- Whatever stands behind them, no fewer are read. -/
theorem MantissaText.exists_mantissa_append {mantissaText : List Char}
    (h : MantissaText whole fraction mantissaText) (rest : List Char) :
    ∃ whole' fraction' rest', mantissa (mantissaText ++ rest) = some (whole', fraction', rest') ∧
      rest'.length ≤ rest.length := by
  have hFewer := length_dropWhile_le rest
  cases h with
  | plain hWhole hSome =>
      have hTake : whole ++ rest.takeWhile isDecimalDigit ≠ [] :=
        List.append_ne_nil_of_left_ne_nil hSome _
      have hDrop := hWhole.dropWhile_append rest
      by_cases hPoint : (rest.dropWhile isDecimalDigit).head? = some '.'
      · obtain ⟨behind, hBehind⟩ := List.head?_eq_some_iff.mp hPoint
        have hFewer' := length_dropWhile_le behind
        rw [hBehind, List.length_cons] at hFewer
        rw [mantissa_of_point (hDrop.trans hBehind), hWhole.takeWhile_append,
          if_neg fun hNone => hTake hNone.1]
        exact ⟨_, _, _, rfl, by omega⟩
      · rw [mantissa_of_no_point (by rwa [hDrop]), hDrop, hWhole.takeWhile_append, if_neg hTake]
        exact ⟨_, _, _, rfl, hFewer⟩
  | pointed hWhole hFraction hSome =>
      rw [mantissa_pointed hWhole hFraction hSome]
      exact ⟨_, _, _, rfl, hFewer⟩

/-- It begins with a digit or with its point. -/
theorem MantissaText.exists_cons {mantissaText : List Char}
    (h : MantissaText whole fraction mantissaText) :
    ∃ c rest, mantissaText = c :: rest ∧ (isDecimalDigit c = true ∨ c = '.') := by
  cases h with
  | plain hWhole hSome =>
      obtain ⟨c, rest, rfl⟩ := List.exists_cons_of_ne_nil hSome
      exact ⟨c, rest, rfl, .inl (hWhole c List.mem_cons_self)⟩
  | pointed hWhole hFraction hSome =>
      cases whole with
      | nil => exact ⟨_, _, rfl, .inr rfl⟩
      | cons c rest => exact ⟨_, _, rfl, .inl (hWhole c List.mem_cons_self)⟩

end Mantissa

section Power

variable {text rest digits : List Char} {negative : Bool}

theorem not_sign_of_isDecimalDigit {c : Char} (h : isDecimalDigit c = true) :
    c ≠ '-' ∧ c ≠ '+' := by
  constructor <;>
  · rintro rfl
    exact absurd h (by decide)

theorem powerOfTen_letter {letter : Char} (h : letter = 'e' ∨ letter = 'E') (text : List Char) :
    powerOfTen (letter :: text) = ((sign text).1, (sign text).2.takeWhile isDecimalDigit) := by
  rcases h with rfl | rfl <;> rfl

theorem powerOfTen_other {c : Char} (h : ¬ (c = 'e' ∨ c = 'E')) (text : List Char) :
    powerOfTen (c :: text) = (false, []) := by
  simp [powerOfTen, h]

/-- What is left behind a power of ten. -/
def powerRest (text : List Char) : List Char :=
  if (powerOfTen text).2 = [] then text
  else (sign text.tail).2.dropWhile isDecimalDigit

/-- What is read as a power of ten is one. A sign without digits behind it is left. -/
theorem exists_powerText (text : List Char) :
    ∃ powerText, PowerText ((powerOfTen text).1 && !(powerOfTen text).2.isEmpty)
      (powerOfTen text).2 powerText ∧ text = powerText ++ powerRest text := by
  by_cases hSome : (powerOfTen text).2 = []
  · rw [powerRest, if_pos hSome, hSome, List.isEmpty_nil, Bool.not_true, Bool.and_false]
    exact ⟨[], .none, rfl⟩
  rw [powerRest, if_neg hSome, List.isEmpty_eq_false_iff.mpr hSome, Bool.not_false, Bool.and_true]
  cases text with
  | nil => exact absurd rfl hSome
  | cons letter behind =>
      by_cases hLetter : letter = 'e' ∨ letter = 'E'
      · obtain ⟨signText, hSign, hBehind⟩ := exists_signText behind
        rw [powerOfTen_letter hLetter] at hSome ⊢
        refine ⟨_, .power hLetter hSign (allDecimal_takeWhile _) hSome, ?_⟩
        rw [List.cons_append, List.append_assoc, List.tail_cons,
          List.takeWhile_append_dropWhile, ← hBehind]
      · rw [powerOfTen_other hLetter] at hSome
        exact absurd rfl hSome

/-- A power of ten is read on to the end of the digits. -/
theorem PowerText.powerOfTen_append {powerText : List Char}
    (h : PowerText negative digits powerText) (hSome : digits ≠ []) (rest : List Char) :
    powerOfTen (powerText ++ rest) = (negative, digits ++ rest.takeWhile isDecimalDigit) ∧
      powerRest (powerText ++ rest) = rest.dropWhile isDecimalDigit := by
  cases h with
  | none => exact absurd rfl hSome
  | @power letter _ signText _ hLetter hSign hDigits _ =>
      obtain ⟨d, more, rfl⟩ := List.exists_cons_of_ne_nil hSome
      obtain ⟨hMinus, hPlus⟩ := not_sign_of_isDecimalDigit (hDigits d List.mem_cons_self)
      have hSigned : sign (signText ++ (d :: more ++ rest)) = (negative, d :: more ++ rest) :=
        hSign.sign_append hMinus hPlus (more ++ rest)
      have hRead : powerOfTen (letter :: (signText ++ (d :: more ++ rest))) =
          (negative, d :: more ++ rest.takeWhile isDecimalDigit) := by
        rw [powerOfTen_letter hLetter, hSigned, hDigits.takeWhile_append]
      rw [List.cons_append, List.append_assoc]
      refine ⟨hRead, ?_⟩
      rw [powerRest, hRead, if_neg (by simp), List.tail_cons, hSigned, hDigits.dropWhile_append]

theorem PowerText.length_powerRest_le {powerText : List Char}
    (h : PowerText negative digits powerText) (rest : List Char) :
    (powerRest (powerText ++ rest)).length ≤ rest.length := by
  by_cases hSome : digits = []
  · cases h with
    | none =>
        obtain ⟨powerText, -, hText⟩ := exists_powerText rest
        have hLength := congrArg List.length hText
        rw [List.length_append] at hLength
        rw [List.nil_append]
        omega
    | power _ _ _ hDigits => exact absurd hSome hDigits
  · rw [(h.powerOfTen_append hSome rest).2]
    exact length_dropWhile_le rest

/-- No digit and no point begins a power of ten. -/
theorem PowerText.stops {powerText : List Char} (h : PowerText negative digits powerText)
    {rest : List Char} (hRest : powerText = [] → rest = []) :
    (powerText ++ rest).takeWhile isDecimalDigit = [] ∧
      (powerText ++ rest).head? ≠ some '.' := by
  cases h with
  | none =>
      rw [hRest rfl]
      exact ⟨rfl, by decide⟩
  | power hLetter =>
      rcases hLetter with rfl | rfl
      · exact ⟨List.takeWhile_cons_of_neg (by decide), by simp⟩
      · exact ⟨List.takeWhile_cons_of_neg (by decide), by simp⟩

end Power

section Reading

variable {n : Numeral} {text front rest : List Char}

/-- The numeral without the sign of a power of ten that has no digits. -/
def settled (n : Numeral) : Numeral :=
  { n with negativePower := n.negativePower && !n.power.isEmpty }

theorem exponent_settled (n : Numeral) : n.settled.exponent = n.exponent := by
  obtain ⟨negative, whole, fraction, negativePower, power⟩ := n
  cases power with
  | nil =>
      cases negativePower
      · rfl
      · simp [settled, exponent, digitsValue]
  | cons d rest => simp [settled, exponent]

/-- What is left behind the numeral at the front of a text. -/
def behind (text : List Char) : List Char :=
  match mantissa (sign text).2 with
  | none => text
  | some (_, _, rest) => powerRest rest

theorem leading?_eq (text : List Char) :
    leading? text = (mantissa (sign (skipBlanks text)).2).map fun (whole, fraction, rest) =>
      ⟨(sign (skipBlanks text)).1, whole, fraction, (powerOfTen rest).1, (powerOfTen rest).2⟩ := by
  simp only [leading?]
  cases mantissa (sign (skipBlanks text)).2 <;> rfl

/-- What is read is at the front of the text. -/
theorem exists_writes (h : leading? text = some n) :
    ∃ front, n.settled.Writes front ∧ skipBlanks text = front ++ behind (skipBlanks text) := by
  obtain ⟨signText, hSign, hText⟩ := exists_signText (skipBlanks text)
  cases hMantissa : mantissa (sign (skipBlanks text)).2 with
  | none =>
      rw [leading?_eq, hMantissa] at h
      cases h
  | some parts =>
      obtain ⟨whole, fraction, rest⟩ := parts
      obtain ⟨mantissaText, hMantissaText, hUnsigned⟩ := exists_mantissaText hMantissa
      obtain ⟨powerText, hPower, hRest⟩ := exists_powerText rest
      rw [leading?_eq, hMantissa] at h
      cases h
      refine ⟨_, .intro hSign hMantissaText hPower, ?_⟩
      rw [behind, hMantissa, List.append_assoc, List.append_assoc, ← hRest, ← hUnsigned, ← hText]

theorem exists_mantissa_of_power {whole fraction digits mantissaText powerText : List Char}
    {negative : Bool} (h : MantissaText whole fraction mantissaText)
    (hPower : PowerText negative digits powerText) (rest : List Char) :
    ∃ whole' fraction' rest',
      mantissa (mantissaText ++ (powerText ++ rest)) = some (whole', fraction', rest') ∧
        (powerRest rest').length ≤ rest.length := by
  by_cases hNone : powerText = []
  · obtain ⟨whole', fraction', rest', hRead, hLength⟩ := h.exists_mantissa_append rest
    rw [hNone]
    exact ⟨_, _, _, hRead, Nat.le_trans (PowerText.none.length_powerRest_le rest') hLength⟩
  · obtain ⟨hStop, hPoint⟩ := hPower.stops fun hNil => absurd hNil hNone
    exact ⟨_, _, _, h.mantissa_append hStop hPoint, hPower.length_powerRest_le rest⟩

/-- The reader takes the sign of a numeral. -/
theorem sign_append {negative : Bool} {whole fraction signText mantissaText : List Char}
    (hSign : SignText negative signText) (h : MantissaText whole fraction mantissaText)
    (rest : List Char) :
    sign (signText ++ (mantissaText ++ rest)) = (negative, mantissaText ++ rest) := by
  obtain ⟨c, more, rfl, hStart⟩ := h.exists_cons
  have hMarks : c ≠ '-' ∧ c ≠ '+' := by
    rcases hStart with hDigit | rfl
    · exact not_sign_of_isDecimalDigit hDigit
    · decide
  exact hSign.sign_append hMarks.1 hMarks.2 (more ++ rest)

/-- A numeral at the front of a text is read, or a longer one is. -/
theorem Writes.exists_longer (h : n.Writes front) (hText : skipBlanks text = front ++ rest) :
    (∃ n', leading? text = some n') ∧ (behind (skipBlanks text)).length ≤ rest.length := by
  cases h with
  | intro hSign hMantissa hPower =>
      obtain ⟨whole', fraction', rest', hRead, hLength⟩ :=
        exists_mantissa_of_power hMantissa hPower rest
      have hSigned := sign_append hSign hMantissa
      rw [List.append_assoc, List.append_assoc] at hText
      rw [leading?_eq, behind, hText, hSigned, hRead]
      exact ⟨⟨_, rfl⟩, hLength⟩

/-- No numeral reaches behind what the reader leaves. -/
theorem Writes.longestPrefix (h : n.Writes front)
    (hText : skipBlanks text = front ++ behind (skipBlanks text)) :
    LongestPrefix IsText (skipBlanks text) front := by
  refine ⟨⟨n, h⟩, ⟨_, hText.symm⟩, ?_⟩
  rintro other ⟨n', hOther⟩ ⟨rest, hRest⟩
  have hLength := (hOther.exists_longer hRest.symm).2
  have hSame := congrArg List.length (hText.symm.trans hRest.symm)
  rw [List.length_append, List.length_append] at hSame
  omega

/-- What is read is the longest numeral at the front of the text. -/
theorem exists_longestPrefix (h : leading? text = some n) :
    ∃ front, n.settled.Writes front ∧ LongestPrefix IsText (skipBlanks text) front := by
  obtain ⟨front, hWrites, hText⟩ := exists_writes h
  exact ⟨front, hWrites, hWrites.longestPrefix hText⟩

/-- Nothing is read where no numeral is at the front of the text. -/
theorem leading?_eq_none_iff :
    leading? text = none ↔ ∀ front, IsText front → ¬ front <+: skipBlanks text := by
  constructor
  · rintro h front ⟨n, hWrites⟩ ⟨rest, hRest⟩
    obtain ⟨n', hRead⟩ := (hWrites.exists_longer hRest.symm).1
    rw [h] at hRead
    cases hRead
  · intro h
    rw [Option.eq_none_iff_forall_ne_some]
    intro n hRead
    obtain ⟨front, -, hLongest⟩ := exists_longestPrefix hRead
    exact h front hLongest.holds hLongest.begins

/-- A decimal digit of any script is no blank. -/
theorem isBlank_eq_false_of_isDecimalDigit {c : Char} (h : isDecimalDigit c = true) :
    isBlank c = false := by
  have hApart : ∀ first ∈ decimalZeros, 0x20 < first ∧ (first + 10 ≤ 0x85 ∨ 0xA0 < first ∧
      (first + 10 ≤ 0x1680 ∨ 0x1680 < first ∧ (first + 10 ≤ 0x2000 ∨ 0x3000 < first))) := by
    decide
  obtain ⟨first, hFirst, hRange⟩ := List.any_eq_true.mp h
  have hBlock := hApart first hFirst
  simp only [Bool.and_eq_true, decide_eq_true_eq] at hRange
  simp only [isBlank, Bool.or_eq_false_iff, Bool.and_eq_false_iff, decide_eq_false_iff_not,
    beq_eq_false_iff_ne]
  omega

theorem MantissaText.skipBlanks_append {negative : Bool}
    {whole fraction signText mantissaText : List Char} (hSign : SignText negative signText)
    (h : MantissaText whole fraction mantissaText) (rest : List Char) :
    skipBlanks (signText ++ (mantissaText ++ rest)) = signText ++ (mantissaText ++ rest) := by
  obtain ⟨c, more, rfl, hStart⟩ := h.exists_cons
  have hBlank : isBlank c = false := by
    rcases hStart with hDigit | rfl
    · exact isBlank_eq_false_of_isDecimalDigit hDigit
    · decide
  cases hSign with
  | none => exact List.dropWhile_cons_of_neg (by simp [hBlank])
  | plus => exact List.dropWhile_cons_of_neg (by decide)
  | minus => exact List.dropWhile_cons_of_neg (by decide)

theorem PowerText.powerOfTen_eq {negative : Bool} {digits powerText : List Char}
    (h : PowerText negative digits powerText) : powerOfTen powerText = (negative, digits) := by
  by_cases hSome : digits = []
  · cases h with
    | none => rfl
    | power _ _ _ hDigits => exact absurd hSome hDigits
  · simpa using (h.powerOfTen_append hSome []).1

/-- A numeral by itself is read as it was written. -/
theorem Writes.leading?_eq_some (h : n.Writes front) : leading? front = some n := by
  cases h with
  | @intro signText mantissaText powerText hSign hMantissa hPower =>
      obtain ⟨hStop, hPoint⟩ := hPower.stops (fun _ => rfl)
      rw [List.append_nil] at hStop hPoint
      rw [leading?_eq, hMantissa.skipBlanks_append hSign, sign_append hSign hMantissa,
        hMantissa.mantissa_append hStop hPoint]
      simp only [Option.map_some, hPower.powerOfTen_eq]

/-- Digits on both sides of a point, at the front of a text. -/
theorem leading?_pointed {whole fraction : List Char} (hWhole : AllDecimal whole)
    (hFraction : AllDecimal fraction) (hSome : whole ≠ [] ∨ fraction ≠ []) (rest : List Char) :
    leading? (whole ++ '.' :: fraction ++ rest) =
      some ⟨false, whole, fraction ++ rest.takeWhile isDecimalDigit,
        (powerOfTen (rest.dropWhile isDecimalDigit)).1,
        (powerOfTen (rest.dropWhile isDecimalDigit)).2⟩ := by
  have hMantissa := MantissaText.pointed hWhole hFraction hSome
  have hSkip : skipBlanks (whole ++ '.' :: fraction ++ rest) = whole ++ '.' :: fraction ++ rest :=
    hMantissa.skipBlanks_append .none rest
  have hSign : sign (whole ++ '.' :: fraction ++ rest) =
      (false, whole ++ '.' :: fraction ++ rest) := sign_append .none hMantissa rest
  rw [leading?_eq, hSkip, hSign, mantissa_pointed hWhole hFraction hSome]
  rfl

end Reading

section Filter

theorem AllDecimal.filter_eq {digits : List Char} (h : AllDecimal digits) :
    digits.filter isDecimalDigit = digits :=
  List.filter_eq_self.mpr h

theorem SignText.filter_eq {negative : Bool} {signText : List Char}
    (h : SignText negative signText) : signText.filter isDecimalDigit = [] := by
  cases h <;> decide

theorem MantissaText.filter_eq {whole fraction mantissaText : List Char}
    (h : MantissaText whole fraction mantissaText) :
    mantissaText.filter isDecimalDigit = whole ++ fraction := by
  cases h with
  | plain hWhole => rw [hWhole.filter_eq, List.append_nil]
  | pointed hWhole hFraction =>
      rw [List.filter_append, List.filter_cons_of_neg (by decide), hWhole.filter_eq,
        hFraction.filter_eq]

theorem PowerText.filter_eq {negative : Bool} {digits powerText : List Char}
    (h : PowerText negative digits powerText) : powerText.filter isDecimalDigit = digits := by
  cases h with
  | none => rfl
  | power hLetter hSign hDigits =>
      rw [List.filter_cons_of_neg (by rcases hLetter with rfl | rfl <;> decide),
        List.filter_append, hSign.filter_eq, hDigits.filter_eq, List.nil_append]

/-- The digits of a text are those of its numeral. -/
theorem Writes.filter_eq {n : Numeral} {front : List Char} (h : n.Writes front) :
    front.filter isDecimalDigit = n.whole ++ n.fraction ++ n.power := by
  cases h with
  | intro hSign hMantissa hPower =>
      rw [List.filter_append, List.filter_append, hSign.filter_eq, hMantissa.filter_eq,
        hPower.filter_eq, List.nil_append]

theorem Writes.isAscii_iff {n : Numeral} {front : List Char} (h : n.Writes front) :
    n.isAscii = true ↔ ∀ c ∈ front, isDecimalDigit c = true → isAsciiDigit c = true := by
  have hAll : n.isAscii = (front.filter isDecimalDigit).all isAsciiDigit := by
    rw [isAscii, h.filter_eq, List.all_append, List.all_append]
  simp only [hAll, List.all_eq_true, List.mem_filter, and_imp]

end Filter

end Numeral

end KeypadCalculator
