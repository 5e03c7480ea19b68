import KeypadCalculator.Glyph
import KeypadCalculator.Operator
import KeypadCalculator.Text.DecimalDigit

/-!
The keys of the calculator, their labels, and how typed text presses them.
-/

namespace KeypadCalculator

open Text

/-- A key of the keypad. A digit key carries the character that it types. -/
inductive Key where
  | digit (c : Char)
  | operator (op : Operator)
  | decimal
  | openParen
  | closeParen
  | equals
  | backspace
  | clear
  deriving DecidableEq, Repr

namespace Key

/-- What is printed on a key. -/
def label : Key → List Char
  | .digit c => [c]
  | .operator op => op.symbol
  | .decimal => ['.']
  | .openParen => ['(']
  | .closeParen => [')']
  | .equals => ['=']
  | .backspace => ['⌫']
  | .clear => ['C']

/-- The key that types a character, with `*` and `/` for the multiplication and
division keys where `ascii` is set. -/
def ofChar? (ascii : Bool) (c : Char) : Option Key :=
  if isAsciiDigit c then some (.digit c)
  else if c = '.' then some .decimal
  else if c = '(' then some .openParen
  else if c = ')' then some .closeParen
  else if c = '=' then some .equals
  else if c = 'C' || c = 'c' then some .clear
  else if c = '<' || c = '⌫' then some .backspace
  else if ascii && c = '*' then some (.operator .multiply)
  else if ascii && c = '/' then some (.operator .divide)
  else (Operator.ofChar? c).map .operator

def ofGlyph? (ascii : Bool) : Glyph → Option Key
  | .modulo => some (.operator .modulo)
  | .character c => ofChar? ascii c

/-- The keys that a typed text presses. Glyphs that no key carries are passed
over. -/
def ofTyping (ascii : Bool) (typed : List Char) : List Key :=
  (Glyph.ofText typed).filterMap (ofGlyph? ascii)

/-- The key that a label names. A label has to be one whole key. -/
def ofLabel (label : List Char) : Except Fault Key :=
  match label with
  | ['m', 'o', 'd'] => .ok (.operator .modulo)
  | [c] => match ofChar? false c with
    | some key => .ok key
    | none => .error (.unknownOperator label)
  | _ => .error (.unknownOperator label)

end Key

end KeypadCalculator
