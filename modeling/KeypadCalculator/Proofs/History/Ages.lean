import KeypadCalculator.History.Age
import KeypadCalculator.Proofs.Calendar.DateText

/-!
The ages that the history list shows: minutes, hours and days for a week, and from
then on the date, which no longer depends on the moment of looking.
-/

namespace KeypadCalculator

/-- The whole minutes since a timestamp, and none since one in the future. -/
def minutesSince (timestamp now : UInt64) : Nat :=
  (now.toNat - timestamp.toNat) / 60000

/-- The whole days from the first of January 1970 to a timestamp. -/
def dayNumber (timestamp : UInt64) : Nat :=
  timestamp.toNat / 86400000

/-- The date on which a timestamp falls. -/
def dateOf (timestamp : UInt64) : Date :=
  Date.afterEpoch (dayNumber timestamp)

/-- A week has passed since a timestamp, and its year has four digits. -/
structure IsDated (timestamp now : UInt64) : Prop where
  week : 10080 ≤ minutesSince timestamp now
  year : (dateOf timestamp).year ≤ 9999

/-- The units by their bounds in minutes. -/
theorem ageText_eq (timestamp now : UInt64) :
    ageText timestamp now =
      if minutesSince timestamp now < 1 then "Just now".toList
      else if minutesSince timestamp now < 60 then
        Nat.toDigits 10 (minutesSince timestamp now) ++ "m ago".toList
      else if minutesSince timestamp now < 1440 then
        Nat.toDigits 10 (minutesSince timestamp now / 60) ++ "h ago".toList
      else if minutesSince timestamp now < 10080 then
        Nat.toDigits 10 (minutesSince timestamp now / 1440) ++ "d ago".toList
      else dateText timestamp.toNat := by
  have hDay : minutesSince timestamp now / 60 < 24 ↔ minutesSince timestamp now < 1440 := by omega
  have hWeek : minutesSince timestamp now / 60 / 24 < 7 ↔
      minutesSince timestamp now < 10080 := by omega
  have hDays : minutesSince timestamp now / 60 / 24 = minutesSince timestamp now / 1440 :=
    Nat.div_div_eq_div_mul ..
  rw [← hDays, ← if_congr hDay rfl rfl, ← if_congr hWeek rfl rfl]
  rfl

theorem dateText_of_year_le {timestamp : UInt64} (h : (dateOf timestamp).year ≤ 9999) :
    dateText timestamp.toNat = (dateOf timestamp).isoText := by
  have hDate : Date.ofDayNumber (timestamp.toNat / 86400000) = dateOf timestamp :=
    Date.ofDayNumber_eq_afterEpoch _
  have hLast : (dateOf timestamp).year ≤ lastYear := Nat.le_trans h (by decide)
  rw [dateText, hDate, if_pos hLast]
  exact Date.text_eq_isoText (Date.valid_afterEpoch _) h

theorem ageText_of_isDated {timestamp now : UInt64} (h : IsDated timestamp now) :
    ageText timestamp now = (dateOf timestamp).isoText := by
  have hWeek := h.week
  rw [ageText_eq, if_neg (by omega), if_neg (by omega), if_neg (by omega),
    if_neg (by omega), dateText_of_year_le h.year]

/-- A timestamp is shown by its age in minutes, hours or days for a week. From then on
it is shown by the date of its day, whenever that is looked at, and such dates compare
as texts in the order of their days. -/
theorem ages_for_a_week (timestamp now : UInt64) :
    (minutesSince timestamp now < 1 → ageText timestamp now = "Just now".toList) ∧
    (1 ≤ minutesSince timestamp now → minutesSince timestamp now < 60 →
      ageText timestamp now =
        Nat.toDigits 10 (minutesSince timestamp now) ++ "m ago".toList) ∧
    (60 ≤ minutesSince timestamp now → minutesSince timestamp now < 1440 →
      ageText timestamp now =
        Nat.toDigits 10 (minutesSince timestamp now / 60) ++ "h ago".toList) ∧
    (1440 ≤ minutesSince timestamp now → minutesSince timestamp now < 10080 →
      ageText timestamp now =
        Nat.toDigits 10 (minutesSince timestamp now / 1440) ++ "d ago".toList) ∧
    (IsDated timestamp now →
      ageText timestamp now = (dateOf timestamp).isoText ∧
      ∀ timestamp' now', IsDated timestamp' now' →
        (List.Lex (· < ·) (ageText timestamp now) (ageText timestamp' now') ↔
          dayNumber timestamp < dayNumber timestamp')) := by
  refine ⟨fun hNow => ?_, fun hLow hHour => ?_, fun hLow hDay => ?_, fun hLow hWeek => ?_,
    fun hDated => ⟨ageText_of_isDated hDated, fun timestamp' now' hDated' => ?_⟩⟩
  · rw [ageText_eq, if_pos hNow]
  · rw [ageText_eq, if_neg (by omega), if_pos hHour]
  · rw [ageText_eq, if_neg (by omega), if_neg (by omega), if_pos hDay]
  · rw [ageText_eq, if_neg (by omega), if_neg (by omega), if_neg (by omega), if_pos hWeek]
  · have hOrder := Date.lex_isoText (Date.valid_afterEpoch (dayNumber timestamp))
      (Date.valid_afterEpoch (dayNumber timestamp')) hDated.year hDated'.year
    rw [ageText_of_isDated hDated, ageText_of_isDated hDated']
    exact hOrder.trans Date.rank_afterEpoch_lt_iff

/-- Looked at on the fourteenth of November 2023: ages, and two dates in their order. -/
theorem ages_for_a_week_november :
    minutesSince 1699999970000 1700000000000 < 1 ∧
      ageText 1699999970000 1700000000000 = "Just now".toList ∧
    (1 ≤ minutesSince 1699996460000 1700000000000 ∧
      minutesSince 1699996460000 1700000000000 < 60 ∧
      ageText 1699996460000 1700000000000 = "59m ago".toList) ∧
    (60 ≤ minutesSince 1699989200000 1700000000000 ∧
      minutesSince 1699989200000 1700000000000 < 1440 ∧
      ageText 1699989200000 1700000000000 = "3h ago".toList) ∧
    (1440 ≤ minutesSince 1699827200000 1700000000000 ∧
      minutesSince 1699827200000 1700000000000 < 10080 ∧
      ageText 1699827200000 1700000000000 = "2d ago".toList) ∧
    IsDated 951782400000 1700000000000 ∧ IsDated 1609459200000 1700000000000 ∧
    ageText 951782400000 1700000000000 = "2000-02-29".toList ∧
    ageText 1609459200000 1700000000000 = "2021-01-01".toList ∧
    List.Lex (· < ·) (ageText 951782400000 1700000000000)
      (ageText 1609459200000 1700000000000) := by
  have hDate : dateOf 951782400000 = ⟨2000, 2, 29⟩ := by
    have hNumber : dayNumber 951782400000 = 11016 := by decide
    have hDay : Date.FallsOn 11016 1999 365 := ⟨by decide, by decide⟩
    rw [dateOf, hNumber, ← Date.ofDayNumber_eq_afterEpoch, hDay.ofDayNumber_eq]
    decide
  have hDate' : dateOf 1609459200000 = ⟨2021, 1, 1⟩ := by
    have hNumber : dayNumber 1609459200000 = 18628 := by decide
    have hDay : Date.FallsOn 18628 2020 306 := ⟨by decide, by decide⟩
    rw [dateOf, hNumber, ← Date.ofDayNumber_eq_afterEpoch, hDay.ofDayNumber_eq]
    decide
  have hDated : IsDated 951782400000 1700000000000 := ⟨by decide, by rw [hDate]; decide⟩
  have hDated' : IsDated 1609459200000 1700000000000 := ⟨by decide, by rw [hDate']; decide⟩
  obtain ⟨hText, hOrder⟩ := (ages_for_a_week 951782400000 1700000000000).2.2.2.2 hDated
  have hText' := ((ages_for_a_week 1609459200000 1700000000000).2.2.2.2 hDated').1
  rw [hDate] at hText
  rw [hDate'] at hText'
  exact ⟨by decide, (ages_for_a_week 1699999970000 1700000000000).1 (by decide),
    ⟨by decide, by decide,
      (ages_for_a_week 1699996460000 1700000000000).2.1 (by decide) (by decide)⟩,
    ⟨by decide, by decide,
      (ages_for_a_week 1699989200000 1700000000000).2.2.1 (by decide) (by decide)⟩,
    ⟨by decide, by decide,
      (ages_for_a_week 1699827200000 1700000000000).2.2.2.1 (by decide) (by decide)⟩,
    hDated, hDated', hText, hText',
    (hOrder 1609459200000 1700000000000 hDated').2 (by decide)⟩

end KeypadCalculator
