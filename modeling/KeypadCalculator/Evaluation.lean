import KeypadCalculator.Display
import KeypadCalculator.Postfix
import KeypadCalculator.PrefixMinus

/-!
The value of an expression.
-/

namespace KeypadCalculator

open Binary64

/-- Quotients nearer to zero than `10 ^ -15` are taken for rounding noise. -/
def isNoise : Binary64 → Bool
  | .finite _ units _ => units < nearest one (tenPow 15)
  | _ => false

/-- One percent of a number. -/
def hundredth (b : Binary64) : Binary64 :=
  b.div (ofQuotient false (100 * one) 1)

/-- The value of one operation. The percent sign looks at its right operand
alone. -/
def Operator.apply (op : Operator) (a b : Binary64) : Except Fault Binary64 :=
  match op with
  | .add => .ok (a.add b)
  | .subtract => .ok (a.sub b)
  | .multiply => .ok (a.mul b)
  | .divide =>
    if b.isZero then .error .divisionByZero
    else
      let quotient := a.div b
      .ok (if isNoise quotient then Binary64.zero else quotient)
  | .modulo => if b.isZero then .error .moduloByZero else .ok (a.rem b)
  | .percent => .ok (hundredth b)

/-- The operands after one more token, the last of them first. The percent sign
takes its left operand only if there is one. -/
def operandStep (operands : List Binary64) : Token → Except Fault (List Binary64)
  | .number literal => match (Token.number literal).value? with
    | some value => .ok (value :: operands)
    | none => .error .invalidExpression
  | .operator .percent => match operands with
    | b :: below => .ok (hundredth b :: below.tail)
    | [] => .error .invalidExpression
  | .operator op => match operands with
    | b :: a :: below => do
      let value ← op.apply a b
      return value :: below
    | _ => .error .invalidExpression
  | .openParen | .closeParen => .error .invalidExpression

/-- One operand has to be left, and it has to be finite. -/
def settleOperands : List Binary64 → Except Fault Binary64
  | [value] => if value.isFinite then .ok value else .error .notFinite
  | _ => .error .invalidExpression

/-- The value of tokens in postfix order. -/
def evaluatePostfix (tokens : List Token) : Except Fault Binary64 := do
  settleOperands (← tokens.foldlM operandStep [])

/-- The value of a row of tokens. Where nothing in it can be evaluated, it is
zero. -/
def evaluateTokens (tokens : List Token) : Except Fault Binary64 :=
  let ordered := toPostfix (PrefixMinus.complete tokens)
  if ordered.isEmpty then .ok Binary64.zero else evaluatePostfix ordered

/-- An expression, with its blanks collapsed, and what it came to. -/
structure Evaluation where
  expression : List Char
  outcome : Except Fault Binary64

namespace Evaluation

/-- The text that shows the outcome. -/
def display (e : Evaluation) : List Char :=
  match e.outcome with
  | .ok value => settledText value
  | .error _ => errorText

def fault? (e : Evaluation) : Option Fault :=
  match e.outcome with
  | .ok _ => none
  | .error fault => some fault

def value? (e : Evaluation) : Option Binary64 :=
  e.outcome.toOption

end Evaluation

/-- Evaluate a text as an expression. -/
def evaluate (text : List Char) : Evaluation :=
  let expression := Text.collapse text
  { expression, outcome := evaluateTokens (Token.ofText expression) }

end KeypadCalculator
