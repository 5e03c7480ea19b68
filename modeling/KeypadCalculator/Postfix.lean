import KeypadCalculator.Token

/-!
Postfix order: every operator stands behind its operands.

The conversion never fails. A `)` that closes nothing and a `(` that nothing
closes are dropped, and so are literals without a value; an operator that lacks
an operand is left for the evaluation to find.
-/

namespace KeypadCalculator

/-- An operator or an open parenthesis that still waits for what is on its
right. -/
inductive Pending where
  | operator (op : Operator)
  | openParen
  deriving DecidableEq, Repr

namespace Pending

/-- The operators on top of the stack that bind at least as tightly as `op`:
they have their right operand once `op` is read. -/
def release (op : Operator) : List Pending → List Token × List Pending
  | .operator top :: stack =>
    if op.precedence ≤ top.precedence then
      let (released, rest) := release op stack
      (.operator top :: released, rest)
    else ([], .operator top :: stack)
  | stack => ([], stack)

/-- The operators above the innermost open parenthesis, which goes as well. -/
def releaseGroup : List Pending → List Token × List Pending
  | .operator top :: stack =>
    let (released, rest) := releaseGroup stack
    (.operator top :: released, rest)
  | .openParen :: stack => ([], stack)
  | [] => ([], [])

/-- All operators of the stack, from its top. -/
def releaseAll : List Pending → List Token
  | .operator top :: stack => .operator top :: releaseAll stack
  | .openParen :: stack => releaseAll stack
  | [] => []

end Pending

/-- The postfix order of the tokens that follow, with `stack` pending. -/
def postfixFrom (stack : List Pending) : List Token → List Token
  | [] => Pending.releaseAll stack
  | .number literal :: rest =>
    if (Token.number literal).value?.isSome then .number literal :: postfixFrom stack rest
    else postfixFrom stack rest
  | .operator op :: rest =>
    let (released, kept) := Pending.release op stack
    released ++ postfixFrom (.operator op :: kept) rest
  | .openParen :: rest => postfixFrom (.openParen :: stack) rest
  | .closeParen :: rest =>
    let (released, kept) := Pending.releaseGroup stack
    released ++ postfixFrom kept rest

/-- The tokens of an expression in postfix order. -/
def toPostfix (tokens : List Token) : List Token :=
  postfixFrom [] tokens

end KeypadCalculator
