import KeypadCalculator.History.Store
import KeypadCalculator.Keypad.Session
import KeypadCalculator.Settings.Statement

/-!
The user's settings, and how a document gives them.

Every setting may be left out, none may be given twice, and nothing else may
stand in the document.
-/

namespace KeypadCalculator

structure Settings where
  /-- Whether key presses are checked before they are applied. -/
  inputMode : InputMode := .strict
  /-- How many entries the history keeps. -/
  historyLimit : Nat := 100
  /-- The history file, if it is not the one in the user's data directory. -/
  historyPath : Option (List Char) := none
  /-- Whether `*` and `/` are taken for the multiplication and division keys. -/
  asciiOperators : Bool := true
  /-- Whether results are printed with thousands separators. -/
  groupDigits : Bool := false
  deriving DecidableEq, Repr

/-- The input mode that a name stands for. -/
def InputMode.ofName? (name : List Char) : Option InputMode :=
  if name = "strict".toList then some .strict
  else if name = "advisory".toList then some .advisory
  else none

/-- The settings that a document has given so far. -/
structure SettingsDraft where
  inputMode : Option InputMode := none
  historyLimit : Option Nat := none
  historyPath : Option (List Char) := none
  asciiOperators : Option Bool := none
  groupDigits : Option Bool := none
  deriving DecidableEq, Repr

namespace SettingsDraft

def inputModeKey : List Char := "input_mode".toList
def historyLimitKey : List Char := "history_limit".toList
def historyPathKey : List Char := "history_path".toList
def asciiOperatorsKey : List Char := "ascii_operators".toList
def groupDigitsKey : List Char := "group_digits".toList

/-- Set the input mode, which may be done once. -/
def giveMode (d : SettingsDraft) (name : List Char) : Option SettingsDraft :=
  match d.inputMode, InputMode.ofName? name with
  | none, some mode => some { d with inputMode := some mode }
  | _, _ => none

/-- Set the setting that a key names, which may be done once and with a value of
its type. The name of an input mode may also be a key with nothing in it. -/
def give (d : SettingsDraft) (path : List (List Char)) (value : SettingValue) :
    Option SettingsDraft :=
  match path, value with
  | [key, name], .nothing => if key = inputModeKey then d.giveMode name else none
  | [key], .choice name => if key = inputModeKey then d.giveMode name else none
  | [key], .text content =>
    if key = inputModeKey then d.giveMode content
    else if key = historyPathKey && d.historyPath.isNone then
      some { d with historyPath := some content }
    else none
  | [key], .integer n =>
    if key = historyLimitKey && d.historyLimit.isNone && 0 ≤ n && n.toNat < UInt64.size then
      some { d with historyLimit := some n.toNat }
    else none
  | [key], .bool b =>
    if key = asciiOperatorsKey && d.asciiOperators.isNone then
      some { d with asciiOperators := some b }
    else if key = groupDigitsKey && d.groupDigits.isNone then
      some { d with groupDigits := some b }
    else none
  | _, _ => none

/-- The name of the input mode that a row of tables gives: the one empty table
inside the table of the input mode. The header of the outer table may be left
out or come after. -/
def modeOfTables? : List Statement → Option (List Char)
  | [.header [key, name]] => if key = inputModeKey then some name else none
  | [.header [outer], .header [key, name]] =>
    if outer = inputModeKey && key = inputModeKey then some name else none
  | [.header [key, name], .header [outer]] =>
    if outer = inputModeKey && key = inputModeKey then some name else none
  | [.header [key], .assignment [name] .nothing] =>
    if key = inputModeKey then some name else none
  | _ => none

/-- Take the statements of a document over in order. From the first header on,
only the input mode can follow. -/
def giveAll (d : SettingsDraft) : List Statement → Option SettingsDraft
  | [] => some d
  | .assignment path value :: rest => do (← d.give path value).giveAll rest
  | .header path :: rest => do d.giveMode (← modeOfTables? (.header path :: rest))

/-- The settings, with their defaults where nothing is given. -/
def settings (d : SettingsDraft) : Settings :=
  let defaults : Settings := {}
  { inputMode := d.inputMode.getD defaults.inputMode
    historyLimit := d.historyLimit.getD defaults.historyLimit
    historyPath := d.historyPath
    asciiOperators := d.asciiOperators.getD defaults.asciiOperators
    groupDigits := d.groupDigits.getD defaults.groupDigits }

end SettingsDraft

/-- Why there are no settings. -/
inductive SettingsError where
  | cannotRead
  | invalid
  deriving DecidableEq, Repr

/-- The sentence that a user reads about the file at `path`. -/
def SettingsError.message (path : List Char) : SettingsError → List Char
  | .cannotRead => "Failed to read config from ".toList ++ path
  | .invalid => "Invalid config in ".toList ++ path

namespace Settings

/-- The settings of a document. -/
def ofDocument? (text : List Char) : Option Settings := do
  let draft ← SettingsDraft.giveAll {} (← Statement.ofDocument? text)
  return draft.settings

/-- The settings of a file, which has to be there. -/
def ofFile : StoredFile → Except SettingsError Settings
  | .text contents => match ofDocument? contents with
    | some settings => .ok settings
    | none => .error .invalid
  | _ => .error .cannotRead

/-- The settings of the file at the default place, where nothing has to be. -/
def ofDefaultFile (file : StoredFile) : Except SettingsError Settings :=
  if file.exists? then ofFile file else .ok {}

end Settings

end KeypadCalculator
