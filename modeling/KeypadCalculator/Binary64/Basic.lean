/-!
Binary64 numbers as exact mathematical objects.

Every finite number of the format is a whole number of units of `2 ^ -1074`,
its least positive number. Sums, products and comparisons are therefore sums,
products and comparisons of natural numbers, and rounding is the only place
where anything is lost.
-/

namespace KeypadCalculator

namespace Binary64

/-- A power of two. -/
abbrev twoPow (n : Nat) : Nat := Nat.pow 2 n

/-- A power of ten. -/
abbrev tenPow (n : Nat) : Nat := Nat.pow 10 n

/-- The number one, in units. -/
def one : Nat := twoPow 1074

/-- The place of the last digit that a magnitude may have: fifty-three binary
digits are kept, counted from the leading one, and none below a unit. -/
def lastPlace (units : Nat) : Nat :=
  units.log2 - 52

/-- The magnitudes of finite numbers: below `2 ^ 1024`, and zero from the last
place down. -/
def Representable (units : Nat) : Prop :=
  units < twoPow 2098 ∧ twoPow (lastPlace units) ∣ units

instance (units : Nat) : Decidable (Representable units) :=
  inferInstanceAs (Decidable (_ ∧ _))

end Binary64

/-- A number of the format binary64. The two zeros differ in sign, and all
values that are not numbers count as one. -/
inductive Binary64 where
  | finite (negative : Bool) (units : Nat) (representable : Binary64.Representable units)
  | infinite (negative : Bool)
  | notANumber
  deriving DecidableEq

namespace Binary64

/-- The number of so many units, and the infinity of its sign where no finite
number has that magnitude. -/
def ofUnits (negative : Bool) (units : Nat) : Binary64 :=
  if h : Representable units then .finite negative units h else .infinite negative

/-- Positive zero. -/
def zero : Binary64 := ofUnits false 0

def isFinite : Binary64 → Bool
  | .finite .. => true
  | _ => false

/-- Both zeros are zero. -/
def isZero : Binary64 → Bool
  | .finite _ units _ => units == 0
  | _ => false

/-- The number in the interchange format: a sign, eleven digits of exponent
and fifty-two digits of fraction. -/
def ofBits (bits : UInt64) : Binary64 :=
  let negative := twoPow 63 ≤ bits.toNat
  let exponent := bits.toNat / twoPow 52 % 2048
  let fraction := bits.toNat % twoPow 52
  if exponent = 2047 then
    if fraction = 0 then .infinite negative else .notANumber
  else if exponent = 0 then ofUnits negative fraction
  else ofUnits negative ((twoPow 52 + fraction) * twoPow (exponent - 1))

/-- The interchange format counts magnitudes in order: with each last place the
exponent grows by one, and the fraction counts on within it. -/
def toBits : Binary64 → UInt64
  | .finite negative units _ =>
    UInt64.ofNat (negative.toNat * twoPow 63 + lastPlace units * twoPow 52 +
      units / twoPow (lastPlace units))
  | .infinite negative => UInt64.ofNat (negative.toNat * twoPow 63 + 2047 * twoPow 52)
  | .notANumber => UInt64.ofNat (2047 * twoPow 52 + twoPow 51)

end Binary64

end KeypadCalculator
