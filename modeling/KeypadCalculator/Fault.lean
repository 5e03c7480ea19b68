/-!
What can go wrong in a calculation.
-/

namespace KeypadCalculator

/-- Why an expression has no value, or a label names no key. -/
inductive Fault where
  | divisionByZero
  | moduloByZero
  /-- An operator lacks an operand, or operands are left over. -/
  | invalidExpression
  | unknownOperator (label : List Char)
  /-- The arithmetic went beyond the greatest number, or lost its meaning on the
  way. -/
  | notFinite
  deriving DecidableEq, Repr

/-- The sentence that a user reads. -/
def Fault.message : Fault → List Char
  | .divisionByZero => "Division by zero".toList
  | .moduloByZero => "Modulo by zero".toList
  | .invalidExpression => "Invalid expression".toList
  | .unknownOperator label => "Unknown operator: ".toList ++ label
  | .notFinite => "Result is not a finite number".toList

end KeypadCalculator
