import KeypadCalculator.Evaluation
import KeypadCalculator.Keypad.Admission
import KeypadCalculator.Keypad.Key

/-!
A calculator in use: the expression being typed, the last settled result, and
the fault of the last settling. Every key press is a total function on this
state.
-/

namespace KeypadCalculator

/-- Whether keys are checked before they are applied. -/
inductive InputMode where
  /-- Keys that may not follow the expression are ignored. -/
  | strict
  /-- Every key is applied. -/
  | advisory
  deriving DecidableEq, Repr

/-- The state of a calculator. The result is a settled text, or the error text
while a fault is flagged. -/
structure Session where
  expression : List Char
  result : List Char
  fault : Option Fault
  deriving DecidableEq, Repr

namespace Session

/-- Nothing typed yet. -/
def new : Session := ⟨[], ['0'], none⟩

/-- A calculation from the history, as it was settled. -/
def ofSettled (expression result : List Char) : Session :=
  ⟨expression, result, none⟩

/-- The expression without a point at its end, which counts as part of the
number being typed. -/
def base (expression : List Char) : List Char :=
  if expression.getLast? = some '.' then expression.dropLast else expression

/-- Strict input asks whether the text may follow the expression. -/
def accepts (s : Session) (next : List Char) : InputMode → Bool
  | .advisory => true
  | .strict => admits (base s.expression) next

/-- Append a text that was accepted. An edit takes the fault off. -/
def type (s : Session) (next : List Char) : Session :=
  { s with expression := s.expression ++ next, fault := none }

/-- Append a text if the mode lets it. -/
def typeIfAccepted (s : Session) (next : List Char) (mode : InputMode) : Session :=
  if s.accepts next mode then s.type next else s

/-- A point may stand once in the stretch behind the last operator character. -/
def hasPoint (expression : List Char) : Bool :=
  (expression.reverse.takeWhile (!isOperatorChar ·)).contains '.'

def pressDecimal (s : Session) (mode : InputMode) : Session :=
  if hasPoint s.expression then s else s.typeIfAccepted ['.'] mode

/-- An operator takes the place of an operator character at the end of the
expression, and has to be accepted in that place. An empty expression begins
with a minus sign or not at all. The fault is taken off in every case. -/
def pressOperator (s : Session) (op : Operator) (mode : InputMode) : Session :=
  let s := { s with fault := none }
  match s.expression.getLast? with
  | none => if op = .subtract then s.type op.symbol else s
  | some last =>
    if isOperatorChar last then
      let kept := s.expression.dropLast
      if mode = .strict && !admits kept op.symbol then s
      else { s with expression := kept ++ op.symbol }
    else s.typeIfAccepted op.symbol mode

/-- Take one character off the end. -/
def pressBackspace (s : Session) : Session :=
  if s.expression.isEmpty then s
  else { s with expression := s.expression.dropLast, fault := none }

/-- Settle the expression and keep it for further edits. -/
def pressEquals (s : Session) : Session :=
  if s.expression.isEmpty then s
  else
    let e := evaluate s.expression
    { s with result := e.display, fault := e.fault? }

/-- The state after a key press. -/
def press (s : Session) (key : Key) (mode : InputMode) : Session :=
  match key with
  | .digit c => s.typeIfAccepted [c] mode
  | .operator op => s.pressOperator op mode
  | .decimal => s.pressDecimal mode
  | .openParen => s.typeIfAccepted ['('] mode
  | .closeParen => s.typeIfAccepted [')'] mode
  | .equals => s.pressEquals
  | .backspace => s.pressBackspace
  | .clear => new

/-- The state after key presses in order. -/
def pressAll (s : Session) (keys : List Key) (mode : InputMode) : Session :=
  keys.foldl (fun s key => s.press key mode) s

/-- What the display shows while typing: the error text while a fault is
flagged, the settled result while nothing is typed, and otherwise the value of
the expression so far. -/
def preview (s : Session) : List Char :=
  if s.fault.isSome then errorText
  else if s.expression.isEmpty then s.result
  else previewText (evaluate s.expression).display

/-- The expression and result that the history should keep: the expression is
complete, and the result neither an error nor zero. -/
def record? (s : Session) : Option (List Char × List Char) :=
  if s.fault.isNone && s.result != ['0'] && s.result != errorText && isComplete s.expression
  then some (s.expression, s.result)
  else none

end Session

end KeypadCalculator
