import KeypadCalculator.Binary64.Numeral
import KeypadCalculator.Glyph
import KeypadCalculator.Operator

/-!
Expressions as tokens.

Digits and points gather into a literal until an operator, a parenthesis or a
blank ends it. Characters with no meaning are passed over, and do not end the
literal around them: `2*3` is the one literal `23`.
-/

namespace KeypadCalculator

open Text

/-- A lexical unit of an expression. A number is kept as it was typed. -/
inductive Token where
  | number (literal : List Char)
  | operator (op : Operator)
  | openParen
  | closeParen
  deriving DecidableEq, Repr

/-- What a glyph does to the token being gathered. -/
inductive Role where
  /-- Continues the literal. -/
  | literal (c : Char)
  /-- Ends the literal and is a token of its own. -/
  | token (t : Token)
  /-- Ends the literal. -/
  | gap
  /-- Does nothing. -/
  | ignored
  deriving DecidableEq, Repr

def isDecimalPoint (c : Char) : Bool :=
  c == '.'

def isParenthesis (c : Char) : Bool :=
  c == '(' || c == ')'

def Glyph.role : Glyph → Role
  | .modulo => .token (.operator .modulo)
  | .character c =>
    if isAsciiDigit c || isDecimalPoint c then .literal c
    else match Operator.ofChar? c with
      | some op => .token (.operator op)
      | none =>
        if c = '(' then .token .openParen
        else if c = ')' then .token .closeParen
        else if isBlank c then .gap
        else .ignored

namespace Token

/-- The characters of a token inside an expression. -/
def text : Token → List Char
  | .number literal => literal
  | .operator op => op.symbol
  | .openParen => ['(']
  | .closeParen => [')']

/-- The value of a number. A literal without a leading numeral, such as a point
alone, has none. -/
def value? : Token → Option Binary64
  | .number literal => Binary64.leading? literal
  | _ => none

/-- A literal is a run of digits and points that is not empty. -/
def ofRun (run : List Char) : List Token :=
  if run.isEmpty then [] else [.number run]

/-- The tokens of a row of glyphs, of which `run` is the part of the first
literal that was read already. -/
def gather (run : List Char) : List Glyph → List Token
  | [] => ofRun run
  | glyph :: rest => match glyph.role with
    | .literal c => gather (run ++ [c]) rest
    | .token t => ofRun run ++ t :: gather [] rest
    | .gap => ofRun run ++ gather [] rest
    | .ignored => gather run rest

/-- The tokens of an expression. -/
def ofText (expression : List Char) : List Token :=
  gather [] (Glyph.ofText expression)

/-- The expression that tokens write, without blanks. -/
def join (tokens : List Token) : List Char :=
  tokens.flatMap text

end Token

end KeypadCalculator
