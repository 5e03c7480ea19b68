/-!
Blank characters and the words that they separate.
-/

namespace KeypadCalculator.Text

/-- The Unicode property `White_Space`, all twenty-five characters of it. -/
def isBlank (c : Char) : Bool :=
  let n := c.toNat
  (0x09 ≤ n && n ≤ 0x0D) || n == 0x20 || n == 0x85 || n == 0xA0 || n == 0x1680 ||
    (0x2000 ≤ n && n ≤ 0x200A) || n == 0x2028 || n == 0x2029 || n == 0x202F ||
    n == 0x205F || n == 0x3000

/-- The text without the blanks in front of it. -/
def skipBlanks (text : List Char) : List Char :=
  text.dropWhile isBlank

/-- The text without the blanks at either end. -/
def trim (text : List Char) : List Char :=
  (skipBlanks (skipBlanks text).reverse).reverse

/-- A word is a run of characters that is not empty. -/
def word (run : List Char) : List (List Char) :=
  if run.isEmpty then [] else [run]

/-- The words of a text, of which `run` is the part of the first that was read
already. -/
def wordsFrom (run : List Char) : List Char → List (List Char)
  | [] => word run
  | c :: rest => if isBlank c then word run ++ wordsFrom [] rest else wordsFrom (run ++ [c]) rest

/-- The longest runs of characters that are not blank, in order. -/
def words (text : List Char) : List (List Char) :=
  wordsFrom [] text

/-- The text with one space between words and none at the ends. -/
def collapse (text : List Char) : List Char :=
  [' '].intercalate (words text)

end KeypadCalculator.Text
