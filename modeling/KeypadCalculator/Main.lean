import KeypadCalculator.CommandLine.Run
import Std.Time.DateTime.Timestamp

/-!
The program: it finds the user's directories, reads the two files that a
command may need, and prints and stores what the command gives back.
-/

namespace KeypadCalculator.CommandLine

/-- The directory that an environment variable names, if it names it from the
root; otherwise the one at its usual place in the user's home. -/
def userDirectory (name below : String) : IO (Option (List Char)) := do
  match (← IO.getEnv name).map String.toList with
  | some ('/' :: rest) => return some ('/' :: rest)
  | _ => match ← IO.getEnv "HOME" with
    | some home =>
      return if home.isEmpty then none else some (home ++ "/" ++ below).toList
    | none => return none

def userEnvironment : IO Environment := do
  return {
    configHome := ← userDirectory "XDG_CONFIG_HOME" ".config"
    dataHome := ← userDirectory "XDG_DATA_HOME" ".local/share" }

/-- Milliseconds since the first of January 1970. -/
def currentTime : IO UInt64 := do
  return UInt64.ofNat (← Std.Time.Timestamp.now).toMillisecondsSinceUnixEpoch.val.toNat

/-- The name that the system knows a path by. -/
def systemPath (path : List Char) :=
  System.mkFilePath [String.ofList path]

/-- What stands at a path. Where nothing does, the first name on the way that is
no directory tells why. -/
def lookAt (path : List Char) : IO StoredFile := do
  let name := systemPath path
  if ← name.isDir then return .directory
  if ← name.pathExists then
    try
      match String.fromUTF8? (← IO.FS.readBinFile name) with
      | some contents => return .text contents.toList
      | none => return .undecodable
    catch _ => return .undecodable
  for station in Pathname.stations path do
    let name := systemPath station
    unless ← name.isDir do
      return if ← name.pathExists then .unreachable else .absent
  return .absent

/-- Make a path hold what a command left there, and say whether that worked. -/
def keepAt (path : List Char) (file : StoredFile) : IO Bool := do
  let name := systemPath path
  try
    match file with
    | .text contents =>
      unless (Pathname.parent path).isEmpty do
        IO.FS.createDirAll (systemPath (Pathname.parent path))
      IO.FS.writeFile name (String.ofList contents)
    | .absent => if ← name.pathExists then IO.FS.removeFile name
    | _ => pure ()
    return true
  catch _ => return false

/-- Print a report and give its exit code. -/
def publish (report : Report) : IO UInt32 := do
  IO.print (String.ofList report.output)
  match report.failure with
  | some message => IO.eprintln ("Error: " ++ String.ofList message)
  | none => if report.exitCode = 2 then IO.eprint (String.ofList helpText)
  return UInt32.ofNat report.exitCode

/-- Answer lines as they come, and save what they recorded. -/
partial def converse (settings : Settings) (path : Option (List Char)) (r : Repl) : IO Unit := do
  let line :: _ := linesFrom [] (← (← IO.getStdin).getLine).toList | return
  let some (answer, next) ← r.turn currentTime settings line | return
  match path, next.archive with
  | some path, some archive =>
    if next.archive != r.archive then let _ ← keepAt path archive.file
  | _, _ => pure ()
  IO.print (String.ofList answer)
  (← IO.getStdout).flush
  converse settings path next

/-- Carry an invocation out on the file system. -/
def perform (call : Invocation) : IO UInt32 := do
  let env ← userEnvironment
  let settingsFile ← match call.settingsPath <|> env.defaultSettingsPath with
    | some path => lookAt path
    | none => pure .absent
  match loadSettings env (fun _ => settingsFile) call.settingsPath with
  | .error message => publish (.fail [] message)
  | .ok settings =>
    let path := env.historyPath settings
    let file : HistoryFile ← path.mapM fun path => return (path, ← lookAt path)
    if call.command = .repl then
      converse settings path { session := .new, archive := file.archive settings }
      return 0
    else
      let (report, kept) ← execute currentTime settings call.command [] file
      let done ← match kept with
        | some (path, stored) => if kept != file then keepAt path stored else pure true
        | none => pure true
      match call.command, path with
      | .clear, some path =>
        if done then publish report
        else publish (.fail [] (StoreError.cannotRemove.message path (Pathname.parent path)))
      | _, _ => publish report

end KeypadCalculator.CommandLine

open KeypadCalculator.CommandLine

def main (args : List String) : IO UInt32 := do
  match invocation (args.map String.toList) with
  | .error halt => publish halt.report
  | .ok call => perform call
