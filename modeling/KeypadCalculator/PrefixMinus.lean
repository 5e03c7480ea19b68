import KeypadCalculator.Token

/-!
Minus signs without a left operand.

A minus sign at the start or directly after `(` is given a zero to subtract
from. Directly after an operator between operands it negates the one operand
that follows: that operand `x` becomes `(0-x)`, so that the operator in front
keeps its hold on all of it. The percent sign ends an operand, and a minus sign
after it subtracts.
-/

namespace KeypadCalculator

/-- The state of the pass: the tokens so far, the last of them first; the
number of open parentheses; and the numbers of open parentheses, innermost
first, right after each negation that still waits for its operand. -/
structure PrefixMinus where
  done : List Token
  depth : Nat
  waiting : List Nat
  deriving DecidableEq, Repr

namespace PrefixMinus

def start : PrefixMinus := ⟨[], 0, []⟩

/-- The literal that a minus sign without a left operand subtracts from. -/
def zeroLiteral : Token := .number ['0']

/-- Close the negations whose operand has just ended. -/
def close (done : List Token) (depth : Nat) : List Nat → PrefixMinus
  | [] => ⟨done, depth, []⟩
  | d :: waiting =>
    if d = depth then close (.closeParen :: done) (depth - 1) waiting
    else ⟨done, depth, d :: waiting⟩

/-- Take a minus sign over, with the zero that it may need. -/
def minus (s : PrefixMinus) : PrefixMinus :=
  let sign := Token.operator .subtract
  match s.done with
  | [] | .openParen :: _ => { s with done := sign :: zeroLiteral :: s.done }
  | .operator op :: _ =>
    if op = .percent then { s with done := sign :: s.done }
    else
      { done := sign :: zeroLiteral :: .openParen :: s.done
        depth := s.depth + 1
        waiting := (s.depth + 1) :: s.waiting }
  | _ => { s with done := sign :: s.done }

/-- Take the next token over. A closing parenthesis also ends the negations
inside it that are still waiting. -/
def step (s : PrefixMinus) : Token → PrefixMinus
  | .operator .subtract => s.minus
  | .operator op => { s with done := .operator op :: s.done }
  | .openParen => { s with done := .openParen :: s.done, depth := s.depth + 1 }
  | .number literal => close (.number literal :: s.done) s.depth s.waiting
  | .closeParen =>
    close (.closeParen :: s.done) (s.depth - 1) (s.waiting.filter (· ≤ s.depth - 1))

/-- The tokens with an operand on the left of every minus sign. -/
def complete (tokens : List Token) : List Token :=
  (tokens.foldl step start).done.reverse

end PrefixMinus

end KeypadCalculator
