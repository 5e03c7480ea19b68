import KeypadCalculator.Binary64.Rounding
import KeypadCalculator.Text.Blank
import KeypadCalculator.Text.DecimalDigit

/-!
Reading a number from the front of a text.

The reader is lenient: it takes the longest numeral that it finds after blanks
and ignores the rest. `12.5abc` is read as `12.5`, `1.2.3` as `1.2` and `5.` as
`5`; a point alone is no numeral.
-/

namespace KeypadCalculator

/-- A decimal numeral: a sign, digits on both sides of the point, and a power of
ten. The digits are decimal digits of any script. -/
structure Numeral where
  negative : Bool
  whole : List Char
  fraction : List Char
  negativePower : Bool
  power : List Char
  deriving DecidableEq, Repr

namespace Numeral

open Text

/-- A sign, if there is one, and what follows. -/
def sign : List Char → Bool × List Char
  | '-' :: rest => (true, rest)
  | '+' :: rest => (false, rest)
  | text => (false, text)

/-- Digits with at most one point among them; a point in front needs a digit
after it. -/
def mantissa (text : List Char) : Option (List Char × List Char × List Char) :=
  let whole := text.takeWhile isDecimalDigit
  match text.dropWhile isDecimalDigit with
  | '.' :: rest =>
    let fraction := rest.takeWhile isDecimalDigit
    if whole.isEmpty && fraction.isEmpty then none
    else some (whole, fraction, rest.dropWhile isDecimalDigit)
  | rest => if whole.isEmpty then none else some (whole, [], rest)

/-- A power of ten counts only if it has digits. -/
def powerOfTen : List Char → Bool × List Char
  | c :: rest =>
    if c == 'e' || c == 'E' then
      let (negative, digits) := sign rest
      (negative, digits.takeWhile isDecimalDigit)
    else (false, [])
  | [] => (false, [])

/-- The longest numeral at the front of a text, behind blanks. -/
def leading? (text : List Char) : Option Numeral :=
  let (negative, unsigned) := sign (skipBlanks text)
  match mantissa unsigned with
  | none => none
  | some (whole, fraction, rest) =>
    let (negativePower, power) := powerOfTen rest
    some { negative, whole, fraction, negativePower, power }

/-- Every digit is an ASCII digit. -/
def isAscii (n : Numeral) : Bool :=
  n.whole.all isAsciiDigit && n.fraction.all isAsciiDigit && n.power.all isAsciiDigit

/-- All digits read as one whole number. -/
def coefficient (n : Numeral) : Nat :=
  digitsValue (n.whole ++ n.fraction)

/-- The power of ten that the last digit counts. -/
def exponent (n : Numeral) : Int :=
  (if n.negativePower then -(digitsValue n.power : Int) else digitsValue n.power) -
    n.fraction.length

end Numeral

namespace Binary64

/-- The number nearest to `coefficient × 10 ^ exponent`. Powers beyond the ends
of the format are settled without computing them. -/
def ofDecimal (negative : Bool) (coefficient : Nat) (exponent : Int) : Binary64 :=
  if coefficient = 0 then ofUnits negative 0
  else if 400 < exponent then .infinite negative
  else if exponent + coefficient.log2 < -400 then ofUnits negative 0
  else if 0 ≤ exponent then ofQuotient negative (coefficient * tenPow exponent.toNat * one) 1
  else ofQuotient negative (coefficient * one) (tenPow (-exponent).toNat)

/-- The number at the front of a text. A numeral with a digit that is not ASCII
has no value, and one beyond the format is infinite. -/
def leading? (text : List Char) : Option Binary64 :=
  match Numeral.leading? text with
  | none => none
  | some n => if n.isAscii then some (ofDecimal n.negative n.coefficient n.exponent) else none

end Binary64

end KeypadCalculator
