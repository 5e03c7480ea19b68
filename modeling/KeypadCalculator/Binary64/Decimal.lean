import KeypadCalculator.Binary64.Rounding

/-!
Decimal texts of binary64 magnitudes.

A unit is `5 ^ 1074` times `10 ^ -1074`, so every magnitude has a decimal
expansion that ends at that place. Expansions are counted in `10 ^ -1074`, and
choosing the digits to show is rounding a natural number.
-/

namespace KeypadCalculator.Binary64

/-- The number `coefficient × 10 ^ (power - 1074)`. -/
structure Decimal where
  coefficient : Nat
  power : Nat
  deriving DecidableEq, Repr

/-- The count of `10 ^ -1074` in a unit. -/
def unitExpansion : Nat := Nat.pow 5 1074

/-- The count of `10 ^ -1074` in a magnitude. -/
def expansion (units : Nat) : Nat :=
  units * unitExpansion

/-- The number of decimal digits of a natural number, one for zero. -/
def digitCount (n : Nat) : Nat :=
  (Nat.toDigits 10 n).length

namespace Decimal

/-- A reader that rounds to the nearest number gets the magnitude back from the
decimal. -/
def ReadsBack (units : Nat) (d : Decimal) : Prop :=
  nearest (d.coefficient * tenPow d.power) unitExpansion = units

instance (units : Nat) (d : Decimal) : Decidable (d.ReadsBack units) :=
  inferInstanceAs (Decidable (_ = _))

/-- Of the two decimals of one power next to a magnitude, the one that reads
back; of two, the nearer one; of two equally near, the greater one. -/
def ofPower (units power : Nat) : Option Decimal :=
  let exact := expansion units
  let below : Decimal := ⟨exact / tenPow power, power⟩
  let above : Decimal := ⟨exact / tenPow power + 1, power⟩
  if below.ReadsBack units then
    if above.ReadsBack units ∧ tenPow power ≤ 2 * (exact % tenPow power) then some above
    else some below
  else if above.ReadsBack units then some above
  else none

/-- The decimal with the fewest digits that reads back. Seventeen digits are
always enough; the whole expansion stands behind them. -/
def shortest (units : Nat) : Decimal :=
  let total := digitCount (expansion units)
  ((List.range' 1 17).findSome? fun count => ofPower units (total - count)).getD
    ⟨expansion units, 0⟩

/-- A point and the digits after it, without the zeros at their end; nothing
where no digit is left. -/
def fractionText (places fraction : Nat) : List Char :=
  let padded := (Nat.toDigits 10 fraction).leftpad places '0'
  let digits := (padded.reverse.dropWhile (· == '0')).reverse
  if digits.isEmpty then [] else '.' :: digits

/-- All digits written out, as in `1230` and `0.00123`. -/
def positional (d : Decimal) : List Char :=
  if 1074 ≤ d.power then Nat.toDigits 10 (d.coefficient * tenPow (d.power - 1074))
  else
    let places := 1074 - d.power
    Nat.toDigits 10 (d.coefficient / tenPow places) ++
      fractionText places (d.coefficient % tenPow places)

end Decimal

/-- The seven leading digits of a magnitude, rounded with ties to even, and the
power of ten that the first of them counts. -/
def sevenDigits (units : Nat) : Nat × Int :=
  let exact := expansion units
  let count := digitCount exact
  let digits := roundHalfEven exact (tenPow (count - 7))
  let power : Int := count - 1075
  if digits = tenPow 7 then (tenPow 6, power + 1) else (digits, power)

/-- A power of ten, always with its sign. -/
def exponentText (power : Int) : List Char :=
  'e' :: (if power < 0 then '-' else '+') :: Nat.toDigits 10 power.natAbs

/-- Scientific notation: one digit, a point, six digits and the power of ten,
as in `1.234568e+21`. -/
def scientific (units : Nat) : List Char :=
  let (digits, power) := sevenDigits units
  Nat.toDigits 10 (digits / tenPow 6) ++
    '.' :: (Nat.toDigits 10 (digits % tenPow 6)).leftpad 6 '0' ++ exponentText power

/-- A magnitude's text with the sign of the number in front. -/
def signed (negative : Bool) (magnitude : List Char) : List Char :=
  if negative then '-' :: magnitude else magnitude

end KeypadCalculator.Binary64
