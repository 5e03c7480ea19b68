import KeypadCalculator.History.Store

/-!
Text files by path, as the commands see them.

A path is followed name by name from a directory, and every name but the last
has to lead to a directory that is there: `sub/../h.json` leads nowhere as long
as there is no `sub`.
-/

namespace KeypadCalculator.CommandLine

/-- The names on the way from the root. -/
abbrev Location := List (List Char)

/-- The text files there are. A location is a directory when it is on the way to
the working directory, to a file or to one of the directories listed. -/
structure Files where
  workingDirectory : Location
  /-- Directories that may hold no file. -/
  directories : List Location
  contents : List (Location × List Char)
  deriving DecidableEq, Repr

/-- Why a path leads nowhere. -/
inductive Obstacle where
  /-- A name on the way, of which there is nothing. -/
  | missing
  /-- A name on the way that is no directory, or can name nothing at all. -/
  | blocked
  deriving DecidableEq, Repr

namespace Pathname

/-- The names that slashes separate. -/
def names (path : List Char) : List (List Char) :=
  path.splitOn '/'

/-- An empty name or a point stays in its directory. A path that ends with one
leads to a directory. -/
def stays (name : List Char) : Bool :=
  name.isEmpty || name = ['.']

/-- Two points go up to the directory above. -/
def goesUp (name : List Char) : Bool :=
  name = ['.', '.']

/-- The length in UTF-8. -/
def byteLength (text : List Char) : Nat :=
  (String.ofList text).utf8ByteSize

/-- A name is at most 255 bytes long. -/
def isName (name : List Char) : Bool :=
  byteLength name ≤ 255

/-- A path is less than 4096 bytes long and holds no null character. -/
def isPath (path : List Char) : Bool :=
  byteLength path < 4096 && !path.contains '\x00'

/-- The names that lead to the directory of a path: all before the last one that
does not stay. -/
def parentNames (path : List Char) : List (List Char) :=
  ((names path).filter (!stays ·)).dropLast

/-- The directory of a path, without the names that stay. -/
def parent (path : List Char) : List Char :=
  let way := ['/'].intercalate (parentNames path)
  if path.head? = some '/' then '/' :: way else way

/-- What stands in front of each slash, the shortest first. -/
def stations (path : List Char) : List (List Char) :=
  (List.range path.length).filterMap fun n =>
    if 0 < n && path[n]? = some '/' then some (path.take n) else none

end Pathname

namespace Files

open Pathname

def isDirectory (files : Files) (location : Location) : Bool :=
  location.isPrefixOf files.workingDirectory || files.directories.any location.isPrefixOf ||
    files.contents.any fun (file, _) => location.isPrefixOf file.dropLast

def contents? (files : Files) (location : Location) : Option (List Char) :=
  files.contents.lookup location

/-- Where names lead from a directory. The last name need not be there. -/
def follow (files : Files) (location : Location) : List (List Char) → Except Obstacle Location
  | [] => .ok location
  | name :: rest =>
    if stays name then files.follow location rest
    else if goesUp name then files.follow location.dropLast rest
    else
      let next := location ++ [name]
      if files.isDirectory next then files.follow next rest
      else if !isName name then .error .blocked
      else if rest.isEmpty then .ok next
      else if (files.contents? next).isSome then .error .blocked
      else .error .missing

/-- A path begins at the root if a slash stands in front of it, and otherwise at
the working directory. -/
def start (files : Files) (path : List Char) : Location :=
  if path.head? = some '/' then [] else files.workingDirectory

/-- Where a path leads. -/
def locate (files : Files) (path : List Char) : Except Obstacle Location :=
  if path.isEmpty then .error .missing
  else if isPath path then files.follow (files.start path) (names path)
  else .error .blocked

/-- What stands at a path. -/
def look (files : Files) (path : List Char) : StoredFile :=
  match files.locate path with
  | .error .missing => .absent
  | .error .blocked => .unreachable
  | .ok location =>
    if files.isDirectory location then .directory
    else match files.contents? location with
      | some contents => .text contents
      | none => .absent

/-- Make the directories that are missing on a way, one after the other, up to
what cannot be a directory. -/
def makeWay (files : Files) (location : Location) : List (List Char) → Files
  | [] => files
  | name :: rest =>
    if stays name then files.makeWay location rest
    else if goesUp name then files.makeWay location.dropLast rest
    else
      let next := location ++ [name]
      if files.isDirectory next then files.makeWay next rest
      else if isName name && (files.contents? next).isNone then
        { files with directories := next :: files.directories }.makeWay next rest
      else files

/-- Take the file at a location away. Its directory stays. -/
def erase (files : Files) (location : Location) : Files :=
  { files with
    directories := location.dropLast :: files.directories
    contents := files.contents.filter (·.1 != location) }

/-- Put a file at a location in place of what stood there. -/
def write (files : Files) (location : Location) (contents : List Char) : Files :=
  { files with contents := (location, contents) :: files.contents.filter (·.1 != location) }

/-- Put what a command left at a path there. For a file the directories on the
way are made, and they stay even if no file can be made at the end. -/
def put (files : Files) (path : List Char) : StoredFile → Files
  | .text contents =>
    let files := files.makeWay (files.start path) (parentNames path)
    match files.locate path with
    | .ok location =>
      if files.isDirectory location then files else files.write location contents
    | .error _ => files
  | .absent => match files.locate path with
    | .ok location => files.erase location
    | .error _ => files
  | _ => files

end Files

end KeypadCalculator.CommandLine
