/-!
The clock that a run of the program looks at.
-/

namespace KeypadCalculator.CommandLine

/-- What a clock shows, each time that it is looked at: milliseconds since the
first of January 1970. -/
structure Clock where
  reading : Nat → UInt64

namespace Clock

/-- A clock that shows one instant only. -/
def still (now : UInt64) : Clock :=
  ⟨fun _ => now⟩

instance : Coe UInt64 Clock :=
  ⟨still⟩

/-- The clock after it was looked at a number of times. -/
def after (clock : Clock) (looks : Nat) : Clock :=
  ⟨fun n => clock.reading (looks + n)⟩

/-- Look at the clock. -/
def look : StateM Clock UInt64 := fun clock => (clock.reading 0, clock.after 1)

end Clock

end KeypadCalculator.CommandLine
