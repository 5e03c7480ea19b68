/-!
The proleptic Gregorian calendar, from the first of January 1970 on.

Days are counted within cycles of 400 years that begin on the first of March,
so that the leap day is the last day of its year.
-/

namespace KeypadCalculator

structure Date where
  year : Nat
  month : Nat
  day : Nat
  deriving DecidableEq, Repr

namespace Date

/-- The days of 400 years. -/
def cycleDays : Nat := 146097

/-- Days from the first of March of the year zero to the first of January
1970. -/
def epochOffset : Nat := 719468

/-- The year within a cycle, counted from March, of a day of the cycle. Every
fourth year is one day longer, but not every hundredth, but the last. -/
def cycleYear (dayOfCycle : Nat) : Nat :=
  (dayOfCycle - dayOfCycle / 1460 + dayOfCycle / 36524 - dayOfCycle / 146096) / 365

/-- The days of a cycle before the first of March of a year in it. -/
def daysBeforeYear (year : Nat) : Nat :=
  365 * year + year / 4 - year / 100

/-- The days of a year before the first of a month, both counted from March,
which is the month zero. -/
def daysBeforeMonth (month : Nat) : Nat :=
  (153 * month + 2) / 5

/-- The date so many days after the first of January 1970. -/
def ofDayNumber (number : Nat) : Date :=
  let days := number + epochOffset
  let dayOfCycle := days % cycleDays
  let year := cycleYear dayOfCycle
  let dayOfYear := dayOfCycle - daysBeforeYear year
  let month := (5 * dayOfYear + 2) / 153
  let marchYear := days / cycleDays * 400 + year
  { year := if month < 10 then marchYear else marchYear + 1
    month := if month < 10 then month + 3 else month - 9
    day := dayOfYear - daysBeforeMonth month + 1 }

/-- Digits with zeros in front up to a width. -/
def padded (width n : Nat) : List Char :=
  (Nat.toDigits 10 n).leftpad width '0'

/-- Year, month and day with four, two and two digits, as in `2024-02-29`. A
year beyond 9999 has a plus sign. -/
def text (d : Date) : List Char :=
  let year := padded 4 d.year
  (if 9999 < d.year then '+' :: year else year) ++
    '-' :: padded 2 d.month ++ '-' :: padded 2 d.day

end Date

end KeypadCalculator
