import KeypadCalculator.Text.DecimalDigit

/-!
The arguments of the program.

Arguments are taken one by one, at the level of the command that the arguments
so far have named. What is wrong is found at the first argument that cannot
stand where it does, or at the end; a request for help or for the version is
answered where it stands.
-/

namespace KeypadCalculator.CommandLine

open Text

/-- What the program is asked to do. -/
inductive Command where
  | eval (expression : List Char) (preview noHistory : Bool)
  | repl
  | list (limit : Nat)
  | clear
  | check (expression next : List Char)
  deriving DecidableEq, Repr

/-- A command, and the settings file to use instead of the default one. -/
structure Invocation where
  settingsPath : Option (List Char)
  command : Command
  deriving DecidableEq, Repr

/-- Why arguments give no invocation. -/
inductive Halt where
  | version
  | help
  | usage
  deriving DecidableEq, Repr

/-- The command that the arguments so far have named. -/
inductive Level where
  | top
  | eval
  | repl
  | history
  | list
  | clear
  | check
  deriving DecidableEq, Repr

/-- The options of all levels. -/
inductive Flag where
  | config
  | verbose
  | help
  | version
  | preview
  | noHistory
  | limit
  deriving DecidableEq, Repr

namespace Flag

def takesValue : Flag → Bool
  | .config | .limit => true
  | _ => false

/-- Options that may be given at every level. -/
def ofGlobalName? (name : List Char) : Option Flag :=
  if name = "config".toList then some .config
  else if name = "verbose".toList then some .verbose
  else if name = "help".toList then some .help
  else none

end Flag

namespace Level

/-- The commands that a level leads to. -/
def subcommand? (level : Level) (name : List Char) : Option Level :=
  match level with
  | .top =>
    if name = "eval".toList then some .eval
    else if name = "repl".toList then some .repl
    else if name = "history".toList then some .history
    else if name = "check".toList then some .check
    else none
  | .history =>
    if name = "list".toList then some .list
    else if name = "clear".toList then some .clear
    else none
  | _ => none

/-- Levels that lead to commands have a further one that shows help. -/
def isHelpCommand (level : Level) (name : List Char) : Bool :=
  (level = .top || level = .history) && name = "help".toList

/-- An option by its name behind two hyphens. -/
def long? (level : Level) (name : List Char) : Option Flag :=
  let own := match level with
    | .top => if name = "version".toList then some Flag.version else none
    | .eval =>
      if name = "preview".toList then some Flag.preview
      else if name = "no-history".toList then some Flag.noHistory
      else none
    | .list => if name = "limit".toList then some Flag.limit else none
    | _ => none
  own <|> Flag.ofGlobalName? name

/-- An option by its letter behind one hyphen. -/
def short? (level : Level) (c : Char) : Option Flag :=
  if c = 'v' then some .verbose
  else if c = 'h' then some .help
  else if c = 'V' && level = .top then some .version
  else if c = 'n' && level = .list then some .limit
  else none

end Level

/-- What the arguments so far have said. The settings path is the last one at
any level; the flags and operands are those of the present level. -/
structure Progress where
  level : Level := .top
  settingsPath : Option (List Char) := none
  flags : List Flag := []
  limit : Option Nat := none
  operands : List (List Char) := []
  /-- Two hyphens alone make everything after them an operand. -/
  operandsOnly : Bool := false
  /-- An option whose value is the next argument. -/
  awaiting : Option Flag := none
  deriving DecidableEq, Repr

/-- A number of 64 bits, with or without a plus sign. -/
def count? (text : List Char) : Option Nat :=
  let digits := match text with
    | '+' :: rest => rest
    | text => text
  if !digits.isEmpty && digits.all isAsciiDigit && digitsValue digits < UInt64.size then
    some (digitsValue digits)
  else none

namespace Progress

/-- An option without a value. Only the verbosity may be raised more than once;
it changes nothing but the log. -/
def raise (p : Progress) (flag : Flag) : Except Halt Progress :=
  match flag with
  | .help => .error .help
  | .version => .error .version
  | .verbose => .ok p
  | flag => if p.flags.contains flag then .error .usage else .ok { p with flags := flag :: p.flags }

/-- An option with its value, once at each level. -/
def assign (p : Progress) (flag : Flag) (value : List Char) : Except Halt Progress := do
  let p ← { p with awaiting := none }.raise flag
  match flag with
  | .config =>
    if value.isEmpty then .error .usage else .ok { p with settingsPath := some value }
  | .limit => match count? value with
    | some n => .ok { p with limit := some n }
    | none => .error .usage
  | _ => .error .usage

/-- An option by name, perhaps with its value behind an equals sign. -/
def takeLong (p : Progress) (body : List Char) : Except Halt Progress :=
  match p.level.long? (body.takeWhile (· != '=')) with
  | none => .error .usage
  | some flag => match body.dropWhile (· != '=') with
    | _ :: value => if flag.takesValue then p.assign flag value else .error .usage
    | [] => if flag.takesValue then .ok { p with awaiting := some flag } else p.raise flag

/-- Options by letter. One that takes a value takes the letters after it, with
or without an equals sign in front. -/
def takeShort (p : Progress) : List Char → Except Halt Progress
  | [] => .ok p
  | c :: rest => match p.level.short? c with
    | none => .error .usage
    | some flag =>
      if flag.takesValue then
        match rest with
        | [] => .ok { p with awaiting := some flag }
        | '=' :: value => p.assign flag value
        | value => p.assign flag value
      else do (← p.raise flag).takeShort rest

/-- An argument that is no option. -/
def takeOperand (p : Progress) (arg : List Char) : Except Halt Progress :=
  match p.level with
  | .eval => .ok { p with operands := p.operands ++ [arg] }
  | .check =>
    if p.operands.length < 2 then .ok { p with operands := p.operands ++ [arg] }
    else .error .usage
  | _ => .error .usage

/-- Take the next argument, which names no command. -/
def take (p : Progress) (arg : List Char) : Except Halt Progress :=
  if p.operandsOnly then p.takeOperand arg
  else match arg, p.awaiting with
    | '-' :: _ :: _, some _ => .error .usage
    | ['-', '-'], none => .ok { p with operandsOnly := true }
    | '-' :: '-' :: body, none => p.takeLong body
    | '-' :: c :: body, none => p.takeShort (c :: body)
    | value, some flag => p.assign flag value
    | value, none => p.takeOperand value

/-- The command that the level names, once all arguments are taken. -/
def command? (p : Progress) : Option Command :=
  match p.level, p.operands with
  | .eval, e :: es =>
    some (.eval ([' '].intercalate (e :: es)) (p.flags.contains .preview)
      (p.flags.contains .noHistory))
  | .repl, _ => some .repl
  | .history, _ | .list, _ => some (.list (p.limit.getD 20))
  | .clear, _ => some .clear
  | .check, [expression, next] => some (.check expression next)
  | _, _ => none

def finish (p : Progress) : Except Halt Invocation :=
  match p.awaiting, p.command? with
  | none, some command => .ok { settingsPath := p.settingsPath, command }
  | _, _ => .error .usage

/-- The help command shows help for the command that its arguments name, which
may be the help command itself. -/
def helpFor (level : Level) : List (List Char) → Halt
  | [] => .help
  | name :: rest => match level.subcommand? name with
    | some level => helpFor level rest
    | none => if level.isHelpCommand name && rest.isEmpty then .help else .usage

/-- Take all arguments in turn. -/
def takeAll (p : Progress) : List (List Char) → Except Halt Invocation
  | [] => p.finish
  | arg :: rest =>
    if p.operandsOnly || p.awaiting.isSome then do (← p.take arg).takeAll rest
    else match p.level.subcommand? arg with
      | some level => takeAll { level, settingsPath := p.settingsPath } rest
      | none =>
        if p.level.isHelpCommand arg then .error (helpFor p.level rest)
        else do (← p.take arg).takeAll rest

end Progress

/-- The invocation that the arguments of the program ask for. -/
def invocation (args : List (List Char)) : Except Halt Invocation :=
  Progress.takeAll {} args

end KeypadCalculator.CommandLine
