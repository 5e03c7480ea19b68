import KeypadCalculator.CommandLine.Arguments
import KeypadCalculator.CommandLine.Clock
import KeypadCalculator.CommandLine.Files
import KeypadCalculator.CommandLine.Repl
import KeypadCalculator.History.Age
import KeypadCalculator.Text.Clip

/-!
What the commands do: they print, they may fail with a message, and they may
change the history file.
-/

namespace KeypadCalculator.CommandLine

/-- What a run of the program gives back. A failure is a message. -/
structure Report where
  output : List Char
  failure : Option (List Char)
  exitCode : Nat
  deriving DecidableEq, Repr

namespace Report

def success (output : List Char) : Report := ⟨output, none, 0⟩

def fail (output message : List Char) : Report := ⟨output, some message, 1⟩

end Report

/-- The name and version that the program prints. -/
def versionText : List Char := "pocketcalc 0.4.0\n".toList

def helpText : List Char :=
  ("A keypad calculator\n\nUsage: pocketcalc [--config PATH] [-v] COMMAND\n\n" ++
    "Commands: eval EXPRESSION..., repl, history [list [-n LIMIT] | clear], " ++
    "check EXPRESSION KEY\n").toList

/-- The report where the arguments name no command. -/
def Halt.report : Halt → Report
  | .version => .success versionText
  | .help => .success helpText
  | .usage => ⟨[], none, 2⟩

/-- The user's directories, and where they keep files of this program. -/
structure Environment where
  configHome : Option (List Char)
  dataHome : Option (List Char)
  deriving DecidableEq, Repr

namespace Environment

def defaultSettingsPath (env : Environment) : Option (List Char) :=
  env.configHome.map (· ++ "/pocketcalc/config.toml".toList)

def defaultHistoryPath (env : Environment) : Option (List Char) :=
  env.dataHome.map (· ++ "/pocketcalc/history.json".toList)

/-- The history file that the settings name, or the one at the default place. -/
def historyPath (env : Environment) (settings : Settings) : Option (List Char) :=
  settings.historyPath <|> env.defaultHistoryPath

end Environment

/-- The settings of an invocation, when `look` says what stands at a path. A file
that was asked for has to be there, the one at the default place does not. -/
def loadSettings (env : Environment) (look : List Char → StoredFile) (asked : Option (List Char)) :
    Except (List Char) Settings :=
  match asked, env.defaultSettingsPath with
  | some path, _ => (Settings.ofFile (look path)).mapError (·.message path)
  | none, some path => (Settings.ofDefaultFile (look path)).mapError (·.message path)
  | none, none => .ok {}

/-- The text with `×` and `÷` in place of `*` and `/`, if the settings ask for
it. -/
def normalized (settings : Settings) (text : List Char) : List Char :=
  if settings.asciiOperators then
    text.map fun c => if c = '*' then '×' else if c = '/' then '÷' else c
  else text

/-- The history file, if there is a place for one: its path and what stands
there. -/
abbrev HistoryFile := Option (List Char × StoredFile)

/-- The archive of a history file. -/
def HistoryFile.archive (settings : Settings) (file : HistoryFile) : Option Archive :=
  file.map fun (_, stored) => Archive.ofFile stored settings.historyLimit

/-- The same history file after an archive was saved to it. -/
def HistoryFile.keep (file : HistoryFile) (archive : Option Archive) : HistoryFile :=
  match file, archive with
  | some (path, _), some archive => some (path, archive.file)
  | file, _ => file

/-- A line of the history list: expression, result and age in columns. -/
def historyLine (settings : Settings) (now : UInt64) (e : Entry) : List Char :=
  Text.padRight 30 (Text.clip 30 e.expression) ++ "  = ".toList ++
    Text.padRight 20 (grouped settings e.result) ++ "  ".toList ++ ageText e.timestamp now ++ ['\n']

/-- Forget the history and remove its file. -/
def runClear (settings : Settings) (file : HistoryFile) : Report × HistoryFile :=
  match file, file.archive settings with
  | some (path, _), some archive =>
    let (archive, outcome) := archive.clear
    match outcome with
    | .ok () => (.success "History cleared\n".toList, file.keep (some archive))
    | .error e => (.fail [] (e.message path (Pathname.parent path)), file)
  | _, _ => (.fail [] "No history location available".toList, file)

/-- Say whether a key may be appended to an expression. -/
def runCheck (settings : Settings) (expression next : List Char) : Report :=
  match Key.ofLabel (normalized settings next) with
  | .ok key =>
    if admits (normalized settings expression) key.label then .success "yes\n".toList
    else .success "no\n".toList
  | .error fault => .fail [] fault.message

section Commands

variable {m : Type → Type} [Monad m] (now : m UInt64) (settings : Settings)

/-- Evaluate an expression and print the result. A success that is complete and
not zero is recorded, unless the user asks for it not to be. -/
def runEval (input : List Char) (preview noHistory : Bool) (file : HistoryFile) :
    m (Report × HistoryFile) := do
  let e := evaluate (normalized settings input)
  match e.fault? with
  | some fault => return (.fail (e.display ++ ['\n']) fault.message, file)
  | none =>
    let text := if preview then previewText e.display else e.display
    let report := Report.success (grouped settings text ++ ['\n'])
    let worthRecording := !noHistory && e.display != ['0'] && isComplete e.expression
    match if worthRecording then file.archive settings else none with
    | some archive =>
      return (report, file.keep (some (archive.record e.expression e.display (← now))))
    | none => return (report, file)

/-- Answer the lines of an input as an interactive calculator. -/
def runRepl (input : List Char) (file : HistoryFile) : m (Report × HistoryFile) := do
  let start : Repl := { session := .new, archive := file.archive settings }
  let (answers, last) ← start.run now settings (linesFrom [] input)
  return (.success answers, file.keep last.archive)

/-- Print the latest entries. -/
def runList (limit : Nat) (file : HistoryFile) : m Report := do
  match file.archive settings with
  | none =>
    return .fail [] "No history location available; set history_path in the config".toList
  | some archive =>
    if archive.history.entries.isEmpty then return .success "No calculations yet\n".toList
    let now ← now
    return .success ((archive.history.entries.take limit).flatMap (historyLine settings now))

/-- Carry a command out. -/
def execute (command : Command) (input : List Char) (file : HistoryFile) :
    m (Report × HistoryFile) :=
  match command with
  | .eval expression preview noHistory => runEval now settings expression preview noHistory file
  | .repl => runRepl now settings input file
  | .list limit => do return (← runList now settings limit file, file)
  | .clear => return runClear settings file
  | .check expression next => return (runCheck settings expression next, file)

end Commands

/-- A run of the program on a set of files. A history file that is as it was is
not written again. -/
def run (env : Environment) (clock : Clock) (args : List (List Char)) (input : List Char)
    (files : Files) : Report × Files :=
  match invocation args with
  | .error halt => (halt.report, files)
  | .ok call => match loadSettings env files.look call.settingsPath with
    | .error message => (.fail [] message, files)
    | .ok settings =>
      let file : HistoryFile := (env.historyPath settings).map fun path => (path, files.look path)
      match ((execute Clock.look settings call.command input file).run clock).1 with
      | (report, some (path, stored)) =>
        (report, if stored = files.look path then files else files.put path stored)
      | (report, none) => (report, files)

end KeypadCalculator.CommandLine
