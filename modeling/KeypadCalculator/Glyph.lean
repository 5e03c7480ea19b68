/-!
Typed text as a keypad sees it: the word `mod` counts as one glyph, and every
other character by itself.
-/

namespace KeypadCalculator

inductive Glyph where
  | modulo
  | character (c : Char)
  deriving DecidableEq, Repr

namespace Glyph

/-- The glyphs of a text, read from the front. -/
def ofText : List Char → List Glyph
  | 'm' :: 'o' :: 'd' :: rest => .modulo :: ofText rest
  | c :: rest => .character c :: ofText rest
  | [] => []

/-- The characters that a glyph stands for. -/
def text : Glyph → List Char
  | .modulo => ['m', 'o', 'd']
  | .character c => [c]

/-- No character is lost between a text and its glyphs. -/
theorem flatMap_text_ofText (s : List Char) : (ofText s).flatMap text = s := by
  fun_induction ofText s with
  | case1 rest ih => simp [text, ih]
  | case2 c rest _ ih => simp [text, ih]
  | case3 => rfl

end Glyph

end KeypadCalculator
