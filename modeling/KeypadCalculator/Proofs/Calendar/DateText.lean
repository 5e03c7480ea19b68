import KeypadCalculator.Proofs.Calendar.DayCount

/-!
The text of a date, place by place, and its order. Up to the year 9999 all dates are
written with the same number of digits, the greater unit first, so dates compare as
texts in the order in which they come.
-/

namespace KeypadCalculator

namespace Date

/-! ### Dates that the calendar has -/

/-- A month and a day of it. -/
structure Valid (d : Date) : Prop where
  month : 1 ≤ d.month ∧ d.month ≤ 12
  day : 1 ≤ d.day ∧ d.day ≤ daysOfMonth d.year d.month

theorem daysOfMonth_bounds (year month : Nat) :
    1 ≤ daysOfMonth year month ∧ daysOfMonth year month ≤ 31 := by
  unfold daysOfMonth
  split
  · split <;> decide
  all_goals decide

theorem Valid.next {d : Date} (h : d.Valid) : d.next.Valid := by
  obtain ⟨hMonth, hDay⟩ := h
  rw [Date.next]
  split
  · rename_i hInside
    exact ⟨hMonth, Nat.le_add_left 1 _, hInside⟩
  · split
    · rename_i hYear
      exact ⟨⟨Nat.le_add_left 1 _, hYear⟩, Nat.le_refl 1, (daysOfMonth_bounds _ _).1⟩
    · exact ⟨⟨Nat.le_refl 1, Nat.le_add_left 1 11⟩, Nat.le_refl 1, (daysOfMonth_bounds _ _).1⟩

theorem valid_afterEpoch (days : Nat) : (afterEpoch days).Valid := by
  induction days with
  | zero => exact ⟨by decide, by decide⟩
  | succ days ih => exact afterEpoch_succ days ▸ ih.next

/-- Year, month and day as the digits of one number. -/
def rank (d : Date) : Nat :=
  (d.year * 100 + d.month) * 100 + d.day

theorem Valid.rank_lt_next {d : Date} (h : d.Valid) : d.rank < d.next.rank := by
  have hDays := (daysOfMonth_bounds d.year d.month).2
  obtain ⟨hMonth, hDay⟩ := h
  rw [Date.next]
  split
  · simp [rank]
  · split
    · simp only [rank]
      omega
    · simp only [rank]
      omega

/-- Days come in the order of their dates. -/
theorem rank_afterEpoch_lt_iff {days days' : Nat} :
    (afterEpoch days).rank < (afterEpoch days').rank ↔ days < days' := by
  have hMono : StrictMono fun days => (afterEpoch days).rank := by
    refine strictMono_nat_of_lt_succ fun days => ?_
    rw [afterEpoch_succ]
    exact (valid_afterEpoch days).rank_lt_next
  exact hMono.lt_iff_lt

/-! ### Texts -/

/-- The two digits of a number below one hundred. -/
def twoDigits (n : Nat) : List Char :=
  [Nat.digitChar (n / 10), Nat.digitChar (n % 10)]

/-- A date of the years up to 9999, as in `2024-02-29`. -/
def isoText (d : Date) : List Char :=
  twoDigits (d.year / 100) ++ twoDigits (d.year % 100) ++ '-' :: twoDigits d.month ++
    '-' :: twoDigits d.day

/-- The last digit stands behind the others, padded to one place less. -/
theorem padded_succ {width : Nat} (hWidth : 0 < width) (n : Nat) :
    padded (width + 1) n = padded width (n / 10) ++ [Nat.digitChar (n % 10)] := by
  rcases Nat.lt_or_ge n 10 with hDigit | hMore
  · obtain ⟨places, rfl⟩ : ∃ places, width = places + 1 := ⟨width - 1, by omega⟩
    rw [padded, padded, Nat.div_eq_of_lt hDigit, Nat.mod_eq_of_lt hDigit,
      Nat.toDigits_of_lt_base hDigit]
    simp [List.leftpad, List.replicate_succ']
  · rw [padded, padded, Nat.toDigits_of_base_le (by decide) hMore]
    simp [List.leftpad]

theorem padded_two {n : Nat} (h : n < 100) : padded 2 n = twoDigits n := by
  have hFirst : n / 10 < 10 := by omega
  rw [padded_succ (by decide), padded, Nat.toDigits_of_lt_base hFirst]
  rfl

theorem padded_four {n : Nat} (h : n < 10000) :
    padded 4 n = twoDigits (n / 100) ++ twoDigits (n % 100) := by
  have hTens : n / 10 % 10 = n % 100 / 10 := by omega
  have hOnes : n % 10 = n % 100 % 10 := by omega
  rw [padded_succ (by decide), padded_succ (by decide), padded_two (by omega),
    Nat.div_div_eq_div_mul, hTens, hOnes]
  rfl

theorem text_eq_isoText {d : Date} (h : d.Valid) (hYear : d.year ≤ 9999) :
    d.text = d.isoText := by
  have hDays := (daysOfMonth_bounds d.year d.month).2
  obtain ⟨hMonth, hDay⟩ := h
  rw [text, isoText, padded_four (by omega), padded_two (by omega), padded_two (by omega),
    if_neg (Nat.not_lt_of_le hYear), List.append_assoc _ ('-' :: twoDigits d.month)]

/-- Two digits decide, or what stands behind them. -/
theorem lex_twoDigits {m n : Nat} (hM : m < 100) (hN : n < 100) (s t : List Char) :
    List.Lex (· < ·) (twoDigits m ++ s) (twoDigits n ++ t) ↔
      m < n ∨ m = n ∧ List.Lex (· < ·) s t := by
  have hOrder : ∀ a < 10, ∀ b < 10, (Nat.digitChar a < Nat.digitChar b ↔ a < b) ∧
      (Nat.digitChar a = Nat.digitChar b ↔ a = b) := by decide
  obtain ⟨hTens, hTensEq⟩ := hOrder (m / 10) (by omega) (n / 10) (by omega)
  obtain ⟨hOnes, hOnesEq⟩ := hOrder (m % 10) (by omega) (n % 10) (by omega)
  simp only [twoDigits, List.cons_append, List.nil_append, List.cons_lex_cons_iff, hTens,
    hTensEq, hOnes, hOnesEq]
  by_cases hRest : List.Lex (· < ·) s t
  · simp only [hRest, and_true]
    omega
  · simp only [hRest, and_false, or_false]
    omega

/-- Dates compare as texts by year, month and day. -/
theorem lex_isoText {d d' : Date} (h : d.Valid) (h' : d'.Valid) (hYear : d.year ≤ 9999)
    (hYear' : d'.year ≤ 9999) :
    List.Lex (· < ·) d.isoText d'.isoText ↔ d.rank < d'.rank := by
  have hDays := (daysOfMonth_bounds d.year d.month).2
  have hDays' := (daysOfMonth_bounds d'.year d'.month).2
  obtain ⟨hMonth, hDay⟩ := h
  obtain ⟨hMonth', hDay'⟩ := h'
  have hEnd : List.Lex (· < ·) (twoDigits d.day) (twoDigits d'.day) ↔ d.day < d'.day := by
    have hLex := @lex_twoDigits d.day d'.day (by omega) (by omega) [] []
    simpa using hLex
  have hHyphen : ¬ '-' < '-' := by decide
  simp only [isoText, List.append_assoc, List.cons_append,
    lex_twoDigits (by omega : d.year / 100 < 100) (by omega : d'.year / 100 < 100),
    lex_twoDigits (by omega : d.year % 100 < 100) (by omega : d'.year % 100 < 100),
    lex_twoDigits (by omega : d.month < 100) (by omega : d'.month < 100),
    List.cons_lex_cons_iff, hHyphen, hEnd, rank, true_and, false_or]
  omega

end Date

end KeypadCalculator
