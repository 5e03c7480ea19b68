/-!
Text fitted into a column.
-/

namespace KeypadCalculator.Text

/-- What stands for the part of a text that was cut off. -/
def ellipsis : List Char := ['.', '.', '.']

/-- A text of at most `width` characters stays as it is. Of a longer one the
beginning stays, and the ellipsis takes the last three characters. -/
def clip (width : Nat) (text : List Char) : List Char :=
  if text.length ≤ width then text else text.take (width - 3) ++ ellipsis

/-- Spaces behind a text up to a width; a longer text stays as it is. -/
def padRight (width : Nat) (text : List Char) : List Char :=
  text ++ List.replicate (width - text.length) ' '

end KeypadCalculator.Text
