import KeypadCalculator.Binary64.Arithmetic
import KeypadCalculator.Binary64.Decimal
import KeypadCalculator.Binary64.Numeral

/-!
Numbers as the calculator shows them.

A settled result is rounded to twelve places and keeps positional notation over
a wide range. The preview shows the number that a text begins with, as it is,
and changes to scientific notation earlier.
-/

namespace KeypadCalculator

open Binary64

/-- What is shown in place of a number. -/
def errorText : List Char := "Error".toList

/-- The magnitude rounded to twelve decimal places. The product with `10 ^ 12`
and the quotient by it are themselves rounded to binary64. -/
def twelvePlaces (units : Nat) : Nat :=
  nearest (roundHalfUp (nearest (units * tenPow 12) 1) * one) (tenPow 12)

/-- Above `10 ^ 15`, and below `10 ^ -10` except for zero, a settled result is
in scientific notation. -/
def settlesScientific (units : Nat) : Bool :=
  tenPow 15 * one < units || (units != 0 && units < nearest one (tenPow 10))

/-- The text of a settled result. Zero has no sign. -/
def settledText : Binary64 → List Char
  | .finite negative units _ =>
    if settlesScientific units then signed negative (scientific units)
    else
      let rounded := twelvePlaces units
      if rounded = 0 then ['0'] else signed negative (Decimal.shortest rounded).positional
  | _ => errorText

/-- Above `10 ^ 12`, and below `10 ^ -6` except for zero, a preview is in
scientific notation. -/
def previewsScientific (units : Nat) : Bool :=
  tenPow 12 * one < units || (units != 0 && units < nearest one (tenPow 6))

/-- The text of a previewed number. -/
def previewNumber : Binary64 → List Char
  | .finite negative units _ =>
    if previewsScientific units then signed negative (scientific units)
    else if units = 0 then ['0']
    else signed negative (Decimal.shortest units).positional
  | _ => errorText

/-- The preview of a result text, which is read again from its front. -/
def previewText (text : List Char) : List Char :=
  if text = errorText || text = ['0'] then text
  else match leading? text with
    | some value => previewNumber value
    | none => errorText

/-- Put a comma in front of each third character from the right, except the
first of all. The text comes reversed. -/
def commasReversed : List Char → List Char
  | a :: b :: c :: d :: rest => a :: b :: c :: ',' :: commasReversed (d :: rest)
  | short => short

/-- Characters in groups of three, counted from the right. -/
def groupThousands (digits : List Char) : List Char :=
  (commasReversed digits.reverse).reverse

/-- A number text with commas in its whole part. Scientific notation and the
error text stay as they are. -/
def groupedText (text : List Char) : List Char :=
  if text = errorText || text = ['0'] || text.contains 'e' then text
  else
    let fraction := text.dropWhile (· != '.')
    match text.takeWhile (· != '.') with
    | '-' :: digits => '-' :: groupThousands digits ++ fraction
    | digits => groupThousands digits ++ fraction

end KeypadCalculator
