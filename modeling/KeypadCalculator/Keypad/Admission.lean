import KeypadCalculator.Token

/-!
Which text may follow an expression while it is being typed, and when an
expression is complete.

Whether something may follow is decided by how the expression ends. Whether
parentheses balance is a question about the whole of it, and asked only of a
complete expression.
-/

namespace KeypadCalculator

open Text

/-- What a text to be appended is, as far as the end of an expression cares. -/
inductive Continuation where
  | digit
  | decimal
  | minus
  | operator
  | openParen
  | closeParen
  | other
  deriving DecidableEq, Repr

namespace Continuation

/-- The modulo operator is the only text of more than one character that an
expression continues with. -/
def ofText : List Char → Continuation
  | [c] =>
    if c = '-' then .minus
    else if c = '.' then .decimal
    else if c = '(' then .openParen
    else if c = ')' then .closeParen
    else if isAsciiDigit c then .digit
    else if isOperatorChar c then .operator
    else .other
  | text => if text = ['m', 'o', 'd'] then .operator else .other

def isOperator : Continuation → Bool
  | .operator | .minus => true
  | _ => false

/-- Whatever an operand may begin with. -/
def startsOperand : Continuation → Bool
  | .digit | .openParen | .minus => true
  | _ => false

end Continuation

/-- The number at the end of an expression has a decimal point: behind the
digits at the end stands a point, and behind it a digit again. -/
def endsWithDecimals (expression : List Char) : Bool :=
  match expression.reverse.dropWhile isDecimalDigit with
  | '.' :: c :: _ => isDecimalDigit c
  | _ => false

/-- The last three characters are the modulo operator. -/
def endsWithModulo (expression : List Char) : Bool :=
  ['m', 'o', 'd'].isSuffixOf expression

/-- Whether a text may be appended to an expression. -/
def admits (expression next : List Char) : Bool :=
  let continuation := Continuation.ofText next
  match expression.getLast? with
  | none => continuation.startsOperand
  | some last =>
    if isAsciiDigit last then
      match continuation with
      | .decimal => !endsWithDecimals expression
      | .digit | .closeParen => true
      | rest => rest.isOperator
    else if isOperatorChar last || endsWithModulo expression || last == '(' then
      continuation.startsOperand
    else if last == ')' then continuation.isOperator || continuation == .closeParen
    else false

/-- The number of open parentheses after one more token, and nothing once more
were closed than opened. -/
def parenStep (depth : Nat) : Token → Option Nat
  | .openParen => some (depth + 1)
  | .closeParen => if depth = 0 then none else some (depth - 1)
  | _ => some depth

/-- Every parenthesis is closed, and none before it is opened. -/
def isBalanced (tokens : List Token) : Bool :=
  tokens.foldlM parenStep 0 == some 0

/-- A token that an expression may end with: a number with a value, or a closing
parenthesis. -/
def endsExpression : Token → Bool
  | .closeParen => true
  | token => token.value?.isSome

/-- An expression is complete when its parentheses balance and its last token
ends an operand. -/
def isComplete (expression : List Char) : Bool :=
  let tokens := Token.ofText expression
  isBalanced tokens && tokens.getLast?.any endsExpression

end KeypadCalculator
