import KeypadCalculator.Calendar

/-!
How long ago a calculation was made.
-/

namespace KeypadCalculator

/-- The last year with a date text. -/
def lastYear : Nat := 262142

/-- The date on which a timestamp falls, in milliseconds since the first of
January 1970; nothing beyond the last year. -/
def dateText (timestamp : Nat) : List Char :=
  let date := Date.ofDayNumber (timestamp / 86400000)
  if date.year ≤ lastYear then date.text else []

/-- The age of a timestamp, or its date from a week on. A timestamp in the
future is taken for now. -/
def ageText (timestamp now : UInt64) : List Char :=
  let minutes := (now.toNat - timestamp.toNat) / 60000
  let ago (count : Nat) (unit : Char) := Nat.toDigits 10 count ++ unit :: " ago".toList
  if minutes < 1 then "Just now".toList
  else if minutes < 60 then ago minutes 'm'
  else if minutes / 60 < 24 then ago (minutes / 60) 'h'
  else if minutes / 60 / 24 < 7 then ago (minutes / 60 / 24) 'd'
  else dateText timestamp.toNat

end KeypadCalculator
