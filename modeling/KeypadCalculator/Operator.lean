import KeypadCalculator.Fault

/-!
The operators of the keypad.
-/

namespace KeypadCalculator

/-- An operator between two operands. The percent sign also stands behind one
operand alone, as a hundredth of it. -/
inductive Operator where
  | add
  | subtract
  | multiply
  | divide
  | modulo
  | percent
  deriving DecidableEq, Repr

namespace Operator

/-- How tightly an operator binds. All operators group to the left. -/
def precedence : Operator → Nat
  | .add | .subtract => 1
  | .multiply | .divide => 2
  | .modulo | .percent => 3

/-- The operator as it stands in an expression. -/
def symbol : Operator → List Char
  | .add => ['+']
  | .subtract => ['-']
  | .multiply => ['×']
  | .divide => ['÷']
  | .modulo => ['m', 'o', 'd']
  | .percent => ['%']

/-- The operator written as one character. The modulo operator has none. -/
def ofChar? (c : Char) : Option Operator :=
  if c = '+' then some .add
  else if c = '-' then some .subtract
  else if c = '×' then some .multiply
  else if c = '÷' then some .divide
  else if c = '%' then some .percent
  else none

/-- The operator that a label names, and nothing else. -/
def ofLabel (label : List Char) : Except Fault Operator :=
  match label with
  | ['m', 'o', 'd'] => .ok .modulo
  | [c] => match ofChar? c with
    | some op => .ok op
    | none => .error (.unknownOperator label)
  | _ => .error (.unknownOperator label)

end Operator

/-- A character that is an operator by itself. -/
def isOperatorChar (c : Char) : Bool :=
  (Operator.ofChar? c).isSome

end KeypadCalculator
