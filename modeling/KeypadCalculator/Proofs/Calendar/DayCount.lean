import Mathlib.Logic.Function.Iterate
import Mathlib.Order.Monotone.Basic
import Mathlib.Tactic.IntervalCases
import KeypadCalculator.Calendar

/-!
The calendar as a rule for the next day, and the date of a day number as so many
next days after the first of January 1970. In between stand years that begin with
March: a day is found by its March year and its place in it.
-/

namespace KeypadCalculator

namespace Date

/-- Every fourth year is a leap year, but of the last years of the centuries only
every fourth. -/
def IsLeap (year : Nat) : Prop :=
  year % 4 = 0 ∧ (year % 100 ≠ 0 ∨ year % 400 = 0)

instance (year : Nat) : Decidable (IsLeap year) :=
  inferInstanceAs (Decidable (_ ∧ _))

/-- The days of a month, January being the first. -/
def daysOfMonth (year : Nat) : Nat → Nat
  | 2 => if IsLeap year then 29 else 28
  | 4 | 6 | 9 | 11 => 30
  | _ => 31

/-- The day after a date. -/
def next (d : Date) : Date :=
  if d.day < daysOfMonth d.year d.month then { d with day := d.day + 1 }
  else if d.month < 12 then { d with month := d.month + 1, day := 1 }
  else { year := d.year + 1, month := 1, day := 1 }

/-- The first of January 1970. -/
def epoch : Date := ⟨1970, 1, 1⟩

/-- The date so many days after the first of January 1970, day by day. -/
def afterEpoch (days : Nat) : Date :=
  next^[days] epoch

theorem afterEpoch_succ (days : Nat) : afterEpoch (days + 1) = (afterEpoch days).next :=
  Function.iterate_succ_apply' next days epoch

/-! ### Years that begin with March -/

/-- The days from the first of March of a year to the first of March of the next.
The leap day belongs to the calendar year that begins in between. -/
def marchYearDays (year : Nat) : Nat :=
  if IsLeap (year + 1) then 366 else 365

/-- The days from the first of March of the year zero to that of another year. -/
def daysBeforeMarch (year : Nat) : Nat :=
  365 * year + year / 4 - year / 100 + year / 400

theorem lt_marchYearDays {year day : Nat} (h : day < marchYearDays year) :
    day < 365 ∨ day = 365 ∧ year % 4 = 3 ∧ (year % 100 ≠ 99 ∨ year % 400 = 399) := by
  rw [marchYearDays] at h
  by_cases hLeap : IsLeap (year + 1)
  · rw [if_pos hLeap] at h
    rw [IsLeap] at hLeap
    omega
  · rw [if_neg hLeap] at h
    exact .inl h

theorem marchYearDays_bounds (year : Nat) :
    365 ≤ marchYearDays year ∧ marchYearDays year ≤ 366 := by
  rw [marchYearDays]
  split <;> decide

theorem daysBeforeMarch_succ (year : Nat) :
    daysBeforeMarch (year + 1) = daysBeforeMarch year + marchYearDays year := by
  have hCentury : year / 100 ≤ year / 4 := Nat.div_le_div_left (by decide) (by decide)
  have hDays : marchYearDays year = 365 +
      ((if 4 ∣ year + 1 then 1 else 0) - (if 100 ∣ year + 1 then 1 else 0) +
        (if 400 ∣ year + 1 then 1 else 0)) := by
    by_cases hLeap : IsLeap (year + 1)
    · rw [marchYearDays, if_pos hLeap]
      rw [IsLeap] at hLeap
      split_ifs <;> omega
    · rw [marchYearDays, if_neg hLeap]
      rw [IsLeap] at hLeap
      split_ifs <;> omega
  rw [daysBeforeMarch, daysBeforeMarch, hDays, Nat.succ_div, Nat.succ_div, Nat.succ_div]
  split_ifs <;> omega

/-- After 400 years the calendar is the same again. -/
theorem daysBeforeMarch_cycle {year : Nat} (cycle : Nat) (h : year < 400) :
    daysBeforeMarch (400 * cycle + year) = cycleDays * cycle + daysBeforeYear year := by
  have hFourth : (400 * cycle + year) / 4 = 100 * cycle + year / 4 := by omega
  have hCentury : (400 * cycle + year) / 100 = 4 * cycle + year / 100 := by omega
  have hCycle : (400 * cycle + year) / 400 = cycle := by omega
  rw [daysBeforeMarch, hFourth, hCentury, hCycle, cycleDays, daysBeforeYear]
  omega

theorem marchYearDays_cycle (cycle year : Nat) :
    marchYearDays (400 * cycle + year) = marchYearDays year := by
  have hLeap : IsLeap (400 * cycle + year + 1) ↔ IsLeap (year + 1) := by
    rw [IsLeap, IsLeap]
    omega
  simp only [marchYearDays, hLeap]

/-- A day number falls on a day of a March year. -/
structure FallsOn (number year day : Nat) : Prop where
  counted : number + epochOffset = daysBeforeMarch year + day
  within : day < marchYearDays year

/-- The next day is in the same March year or the first of the next one. -/
theorem FallsOn.succ {number year day : Nat} (h : FallsOn number year day) :
    (day + 1 < marchYearDays year ∧ FallsOn (number + 1) year (day + 1)) ∨
      (day + 1 = marchYearDays year ∧ FallsOn (number + 1) (year + 1) 0) := by
  obtain ⟨hCounted, hWithin⟩ := h
  rcases Nat.lt_or_eq_of_le (Nat.succ_le_of_lt hWithin) with hInside | hLast
  · exact .inl ⟨hInside, by omega, hInside⟩
  · refine .inr ⟨hLast, ?_, ?_⟩
    · rw [daysBeforeMarch_succ]
      omega
    · exact Nat.lt_of_lt_of_le (by decide) (marchYearDays_bounds (year + 1)).1

theorem exists_fallsOn (number : Nat) : ∃ year day, FallsOn number year day := by
  induction number with
  | zero => exact ⟨1969, 306, by decide, by decide⟩
  | succ number ih =>
      obtain ⟨year, day, h⟩ := ih
      rcases h.succ with ⟨_, hNext⟩ | ⟨_, hNext⟩
      · exact ⟨year, day + 1, hNext⟩
      · exact ⟨year + 1, 0, hNext⟩

/-- Within a cycle the year is found from the day. -/
theorem cycleYear_eq {year day : Nat} (hYear : year < 400) (hDay : day < marchYearDays year) :
    cycleYear (daysBeforeYear year + day) = year := by
  have hDays := lt_marchYearDays hDay
  have hStart : daysBeforeYear year = 365 * year + year / 4 - year / 100 := rfl
  generalize daysBeforeYear year = start at hStart ⊢
  rw [cycleYear]
  by_cases hLast : start + day = 146096
  · rw [hLast]
    omega
  · -- The quotient by 1460 may be ahead by one, and then the first day of the year is over.
    have hCycle : (start + day) / 146096 = 0 := by omega
    have hCentury : (start + day) / 36524 = year / 100 := by omega
    have hLeapDays : (start + day) / 1460 = year / 4 ∧ day < 365 ∨
        (start + day) / 1460 = year / 4 + 1 ∧ 0 < day := by omega
    rw [hCycle, hCentury]
    omega

/-- The date of a day of a month, both counted from zero, and the month from March. -/
def ofMarchMonth (year month day : Nat) : Date where
  year := if month < 10 then year else year + 1
  month := if month < 10 then month + 3 else month - 9
  day := day + 1

/-- The date of a day of a March year. -/
def ofMarchYear (year day : Nat) : Date :=
  let month := (5 * day + 2) / 153
  ofMarchMonth year month (day - daysBeforeMonth month)

theorem FallsOn.ofDayNumber_eq {number year day : Nat} (h : FallsOn number year day) :
    ofDayNumber number = ofMarchYear year day := by
  obtain ⟨hCounted, hWithin⟩ := h
  obtain ⟨cycle, inner, hInner, rfl⟩ : ∃ cycle inner, inner < 400 ∧ year = 400 * cycle + inner :=
    ⟨year / 400, year % 400, Nat.mod_lt year (by decide), (Nat.div_add_mod year 400).symm⟩
  rw [marchYearDays_cycle] at hWithin
  rw [daysBeforeMarch_cycle cycle hInner, Nat.add_assoc] at hCounted
  have hDay : daysBeforeYear inner + day < cycleDays := by
    have hDays := lt_marchYearDays hWithin
    rw [daysBeforeYear, cycleDays]
    omega
  have hCycle : (number + epochOffset) / cycleDays = cycle := by
    rw [hCounted, Nat.mul_add_div (by decide), Nat.div_eq_of_lt hDay, Nat.add_zero]
  have hRest : (number + epochOffset) % cycleDays = daysBeforeYear inner + day := by
    rw [hCounted, Nat.mul_add_mod, Nat.mod_eq_of_lt hDay]
  simp only [ofDayNumber, ofMarchYear, ofMarchMonth, hCycle, hRest, cycleYear_eq hInner hWithin,
    Nat.add_sub_cancel_left, Nat.mul_comm cycle]

/-! ### Months -/

/-- The days of a March year up to the end of a month, February being the last. -/
def daysThroughMonth (year month : Nat) : Nat :=
  if month < 11 then daysBeforeMonth (month + 1) else marchYearDays year

/-- The months of a March year follow each other without a gap. -/
theorem daysBeforeMonth_add_daysOfMonth {month : Nat} (h : month < 12) (year day : Nat) :
    daysBeforeMonth month +
        daysOfMonth (ofMarchMonth year month day).year (ofMarchMonth year month day).month =
      daysThroughMonth year month := by
  rcases Nat.lt_or_eq_of_le (Nat.le_of_lt_succ h) with hBefore | rfl
  · interval_cases month <;> rfl
  · change daysBeforeMonth 11 + (if IsLeap (year + 1) then 29 else 28) = marchYearDays year
    rw [marchYearDays]
    split <;> rfl

/-- What comes after a day of a month: the next day of it, the first day of the next
month, or the first of March. -/
theorem next_ofMarchMonth {month : Nat} (h : month < 12) (year day : Nat) :
    (ofMarchMonth year month day).next =
      if daysBeforeMonth month + day + 1 < daysThroughMonth year month then
        ofMarchMonth year month (day + 1)
      else if month < 11 then ofMarchMonth year (month + 1) 0
      else ofMarchMonth (year + 1) 0 0 := by
  have hDays := daysBeforeMonth_add_daysOfMonth h year day
  have hDay : (ofMarchMonth year month day).day = day + 1 := rfl
  have hLast : day + 1 < daysOfMonth (ofMarchMonth year month day).year
      (ofMarchMonth year month day).month ↔
        daysBeforeMonth month + day + 1 < daysThroughMonth year month := by omega
  simp only [next, hDay, hLast]
  split
  · rfl
  · interval_cases month <;> rfl

theorem ofMarchYear_eq {day month : Nat} (year : Nat) (hLow : daysBeforeMonth month ≤ day)
    (hHigh : day < daysBeforeMonth (month + 1)) :
    ofMarchYear year day = ofMarchMonth year month (day - daysBeforeMonth month) := by
  have hMonth : (5 * day + 2) / 153 = month := by
    rw [daysBeforeMonth] at hLow hHigh
    omega
  rw [ofMarchYear, hMonth]

theorem exists_month {day : Nat} (h : day < 366) :
    ∃ month < 12, daysBeforeMonth month ≤ day ∧ day < daysBeforeMonth (month + 1) := by
  refine ⟨(5 * day + 2) / 153, ?_⟩
  rw [daysBeforeMonth, daysBeforeMonth]
  omega

theorem next_ofMarchYear {year day : Nat} (h : day < marchYearDays year) :
    (ofMarchYear year day).next =
      if day + 1 < marchYearDays year then ofMarchYear year (day + 1)
      else ofMarchYear (year + 1) 0 := by
  have hYear := marchYearDays_bounds year
  obtain ⟨month, hMonth, hLow, hHigh⟩ := exists_month (Nat.lt_of_lt_of_le h hYear.2)
  have hJoined : daysBeforeMonth month + (day - daysBeforeMonth month) = day := by omega
  rw [ofMarchYear_eq year hLow hHigh, next_ofMarchMonth hMonth, hJoined, daysThroughMonth]
  by_cases hFebruary : month < 11
  · -- Every month but the last ends within the year.
    have hEnd : daysBeforeMonth (month + 1) ≤ 337 := by
      rw [daysBeforeMonth]
      omega
    rw [if_pos hFebruary, if_pos (by omega : day + 1 < marchYearDays year)]
    split
    · rename_i hInside
      rw [ofMarchYear_eq year (by omega) hInside, Nat.sub_add_comm hLow]
    · rename_i hOver
      have hFirst : day + 1 = daysBeforeMonth (month + 1) := by omega
      have hNext : daysBeforeMonth (month + 1) < daysBeforeMonth (month + 1 + 1) := by
        rw [daysBeforeMonth, daysBeforeMonth]
        omega
      rw [ofMarchYear_eq year (Nat.le_of_eq hFirst.symm) (hFirst ▸ hNext), hFirst, Nat.sub_self]
  · obtain rfl : month = 11 := by omega
    have hEnd : daysBeforeMonth (11 + 1) = 367 := rfl
    rw [if_neg hFebruary]
    split
    · rename_i hInside
      rw [ofMarchYear_eq year (by omega : daysBeforeMonth 11 ≤ day + 1) (by omega),
        Nat.sub_add_comm hLow]
    · rfl

/-- The date of a day number is so many days after the first of January 1970. -/
theorem ofDayNumber_eq_afterEpoch (number : Nat) : ofDayNumber number = afterEpoch number := by
  induction number with
  | zero => decide
  | succ number ih =>
      obtain ⟨year, day, h⟩ := exists_fallsOn number
      rw [afterEpoch_succ, ← ih, h.ofDayNumber_eq, next_ofMarchYear h.within]
      rcases h.succ with ⟨hInside, hNext⟩ | ⟨hLast, hNext⟩
      · rw [if_pos hInside, hNext.ofDayNumber_eq]
      · rw [if_neg (Nat.not_lt_of_le (Nat.le_of_eq hLast.symm)), hNext.ofDayNumber_eq]

end Date

end KeypadCalculator
