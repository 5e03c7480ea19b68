import KeypadCalculator.History.Archive
import KeypadCalculator.Settings.Basic

/-!
The interactive calculator: every line presses keys, and is answered with the
expression so far and its preview.

The steps run wherever there is a way to tell the time, which they do when they
record a calculation.
-/

namespace KeypadCalculator.CommandLine

/-- The text with thousands separators, if the settings ask for them. -/
def grouped (settings : Settings) (text : List Char) : List Char :=
  if settings.groupDigits then groupedText text else text

/-- A calculator in use, with the archive that settled calculations go to if
there is a place for one. -/
structure Repl where
  session : Session
  archive : Option Archive
  deriving DecidableEq, Repr

namespace Repl

/-- A line that ends the session. -/
def isFarewell (line : List Char) : Bool :=
  Text.trim line = "exit".toList || Text.trim line = "quit".toList

/-- The answer to a line: the expression and what it comes to, with the fault
in words if one is flagged. -/
def answer (settings : Settings) (r : Repl) : List Char :=
  let shown := match r.session.fault with
    | some fault => r.session.preview ++ " (".toList ++ fault.message ++ [')']
    | none => grouped settings r.session.preview
  r.session.expression ++ "  = ".toList ++ shown ++ ['\n']

section Steps

variable {m : Type → Type} [Monad m] (now : m UInt64) (settings : Settings)

/-- Press a key. Settling records the calculation if it is worth it. -/
def press (r : Repl) (key : Key) : m Repl := do
  let session := r.session.press key settings.inputMode
  match if key = .equals then session.record? else none, r.archive with
  | some (expression, result), some archive =>
    return { session, archive := some (archive.record expression result (← now)) }
  | _, _ => return { r with session }

/-- Press the keys of a line. -/
def feed (r : Repl) (line : List Char) : m Repl :=
  (Key.ofTyping settings.asciiOperators line).foldlM (press now settings) r

/-- The answer to a line and the calculator after its keys. A farewell has
none. -/
def turn (r : Repl) (line : List Char) : m (Option (List Char × Repl)) := do
  if isFarewell line then return none
  let next ← r.feed now settings line
  return some (next.answer settings, next)

/-- The answers to lines up to a farewell or the end, and the calculator after
them. -/
def run (r : Repl) : List (List Char) → m (List Char × Repl)
  | [] => return ([], r)
  | line :: rest => do
    match ← r.turn now settings line with
    | none => return ([], r)
    | some (answer, next) =>
      let (answers, last) ← run next rest
      return (answer ++ answers, last)

end Steps

end Repl

/-- A line without the carriage return at its end. -/
def dropReturn (line : List Char) : List Char :=
  if line.getLast? = some '\r' then line.dropLast else line

/-- The lines of an input, of which `line` is the part of the first that was
read already. The last line needs no line feed. -/
def linesFrom (line : List Char) : List Char → List (List Char)
  | [] => if line.isEmpty then [] else [line]
  | c :: rest =>
    if c = '\n' then dropReturn line :: linesFrom [] rest else linesFrom (line ++ [c]) rest

end KeypadCalculator.CommandLine
