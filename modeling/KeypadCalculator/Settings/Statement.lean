import KeypadCalculator.Settings.Toml

/-!
The statements of a settings document.

Only those forms of TOML are read in which a setting can be written. Other
values, such as dates or lists with items, belong to no setting, so a document
that holds one is refused in any case.
-/

namespace KeypadCalculator

/-- A value that some setting takes. -/
inductive SettingValue where
  | text (content : List Char)
  | integer (n : Int)
  | bool (b : Bool)
  /-- A table or list with nothing in it. -/
  | nothing
  /-- A table on one key, with nothing in that key. -/
  | choice (name : List Char)
  deriving DecidableEq, Repr

/-- A line of the document: the header of a table, or a value for a key. -/
inductive Statement where
  | header (path : List (List Char))
  | assignment (path : List (List Char)) (value : SettingValue)
  deriving DecidableEq, Repr

namespace SettingValue

open Toml

/-- What follows an empty list or an empty table. -/
def nothing? (fuel : Nat) : List Char → Option (List Char)
  | '[' :: rest => do
    match ← skipLines? fuel rest with
    | ']' :: rest => some rest
    | _ => none
  | '\x7b' :: rest => do
    match ← skipLines? fuel rest with
    | '\x7d' :: rest => some rest
    | _ => none
  | _ => none

/-- A table in braces whose one key has an empty value. A comma may follow it,
and lines may end and comments stand between any two of its parts. -/
def choice? (fuel : Nat) : List Char → Option (List Char × List Char)
  | '\x7b' :: rest => do
    let (name, rest) ← keyPart? (← skipLines? fuel rest)
    match ← skipLines? fuel rest with
    | '=' :: rest =>
      let rest ← nothing? fuel (← skipLines? fuel rest)
      match ← skipLines? fuel rest with
      | '\x7d' :: rest => some (name, rest)
      | ',' :: rest => match ← skipLines? fuel rest with
        | '\x7d' :: rest => some (name, rest)
        | _ => none
      | _ => none
    | _ => none
  | _ => none

/-- Characters of a number or truth value. -/
def isScalarChar (c : Char) : Bool :=
  isBareKeyChar c || c == '+' || c == '.' || c == ':'

/-- A number or truth value. -/
def scalar? (text : List Char) : Option SettingValue :=
  if text = "true".toList then some (.bool true)
  else if text = "false".toList then some (.bool false)
  else (integer? text).map .integer

/-- A value at the front of a text. -/
def ofFront? (fuel : Nat) (text : List Char) : Option (SettingValue × List Char) :=
  match string? text with
  | some (content, rest) => some (.text content, rest)
  | none => match nothing? fuel text with
    | some rest => some (.nothing, rest)
    | none => match choice? fuel text with
      | some (name, rest) => some (.choice name, rest)
      | none => (scalar? (text.takeWhile isScalarChar)).map (·, text.dropWhile isScalarChar)

end SettingValue

namespace Statement

open Toml

/-- A statement at the front of a text, up to the end of its line. -/
def ofFront? (fuel : Nat) : List Char → Option (Statement × List Char)
  | '[' :: rest => do
    let (path, rest) ← key? fuel rest
    match rest with
    | ']' :: rest => return (.header path, ← finishLine? rest)
    | _ => none
  | text => do
    let (path, rest) ← key? fuel text
    match rest with
    | '=' :: rest =>
      let (value, rest) ← SettingValue.ofFront? fuel (skipSpace rest)
      return (.assignment path value, ← finishLine? rest)
    | _ => none

/-- The statements of a text. The fuel bounds their number. -/
def listOf? : Nat → List Char → Option (List Statement)
  | 0, _ => none
  | fuel + 1, text => do
    let text ← skipLines? (fuel + 1) text
    if text.isEmpty then return []
    let (statement, rest) ← ofFront? (fuel + 1) text
    return statement :: (← listOf? fuel rest)

/-- The statements of a document. A byte order mark may stand in front. -/
def ofDocument? (text : List Char) : Option (List Statement) :=
  let text := match text with
    | '\ufeff' :: rest => rest
    | text => text
  listOf? (text.length + 2) text

end Statement

end KeypadCalculator
