import KeypadCalculator.Json.Reading

/-!
The words of TOML: blanks, comments, keys, strings and numbers.

Every reader takes the front of a text and gives what it read with what
follows, or nothing where the text breaks the rules.
-/

namespace KeypadCalculator.Toml

open Text

/-- Blanks within a line. -/
def isSpace (c : Char) : Bool :=
  c == ' ' || c == '\t'

def skipSpace (text : List Char) : List Char :=
  text.dropWhile isSpace

/-- Characters that stand nowhere but in escapes. -/
def isControl (c : Char) : Bool :=
  (c.toNat < 0x20 && c != '\t') || c.toNat == 0x7F

/-- What follows a line end. A carriage return counts only together with a line
feed. -/
def lineEnd? : List Char → Option (List Char)
  | '\n' :: rest => some rest
  | '\r' :: '\n' :: rest => some rest
  | _ => none

/-- The line end, or the end of the text, behind a comment. -/
def skipComment? : List Char → Option (List Char)
  | [] => some []
  | c :: rest =>
    if (lineEnd? (c :: rest)).isSome then some (c :: rest)
    else if isControl c then none
    else skipComment? rest

/-- What follows the rest of a line that holds nothing but blanks and a comment. -/
def finishLine? (text : List Char) : Option (List Char) :=
  match skipSpace text with
  | [] => some []
  | '#' :: rest => do
    let rest ← skipComment? rest
    if rest.isEmpty then some [] else lineEnd? rest
  | rest => lineEnd? rest

/-- What follows blanks, comments and line ends. The fuel bounds their number. -/
def skipLines? : Nat → List Char → Option (List Char)
  | 0, _ => none
  | fuel + 1, text => match skipSpace text with
    | '#' :: rest => do skipLines? fuel (← skipComment? rest)
    | rest => match lineEnd? rest with
      | some rest => skipLines? fuel rest
      | none => some rest

/-- The character with a number, if it is a character. -/
def scalar? (n : Nat) : Option Char :=
  if h : n.isValidChar then some (Char.ofNatAux n h) else none

/-- The character of an escape with hexadecimal digits. -/
def hexScalar? (digits : List Char) : Option Char :=
  Json.hexNumber? digits >>= scalar?

/-- The character that a one-letter escape stands for. -/
def escaped? (c : Char) : Option Char :=
  if c = '"' || c = '\\' then some c
  else if c = 'b' then some '\x08'
  else if c = 'e' then some '\x1b'
  else if c = 'f' then some '\x0c'
  else if c = 'n' then some '\n'
  else if c = 'r' then some '\r'
  else if c = 't' then some '\t'
  else none

/-- A character put in front of what was read. -/
def prepend (c : Char) (read : Option (List Char × List Char)) : Option (List Char × List Char) :=
  read.map fun (content, rest) => (c :: content, rest)

/-- The content of a string in double quotes, on one line. -/
def basic? : List Char → Option (List Char × List Char)
  | [] => none
  | '"' :: rest => some ([], rest)
  | '\\' :: 'x' :: a :: b :: rest => do prepend (← hexScalar? [a, b]) (basic? rest)
  | '\\' :: 'u' :: a :: b :: c :: d :: rest => do
    prepend (← hexScalar? [a, b, c, d]) (basic? rest)
  | '\\' :: 'U' :: a :: b :: c :: d :: e :: f :: g :: h :: rest => do
    prepend (← hexScalar? [a, b, c, d, e, f, g, h]) (basic? rest)
  | '\\' :: e :: rest => do prepend (← escaped? e) (basic? rest)
  | c :: rest => if isControl c then none else prepend c (basic? rest)

/-- The content of a string in single quotes, on one line. Nothing is escaped. -/
def literal? : List Char → Option (List Char × List Char)
  | [] => none
  | '\'' :: rest => some ([], rest)
  | c :: rest => if isControl c then none else prepend c (literal? rest)

/-- A backslash at the end of a line takes the line end and all blanks after it
away; blanks may stand between the two. -/
def joinsLines (rest : List Char) : Bool :=
  (lineEnd? (skipSpace rest)).isSome

/-- The content of a string in three double quotes. One or two quotes more at
its end belong to the content. While `joining`, blanks and line ends are
skipped. -/
def longBasic? (joining : Bool) : List Char → Option (List Char × List Char)
  | [] => none
  | '"' :: '"' :: '"' :: '"' :: '"' :: rest => some (['"', '"'], rest)
  | '"' :: '"' :: '"' :: '"' :: rest => some (['"'], rest)
  | '"' :: '"' :: '"' :: rest => some ([], rest)
  | '\\' :: 'x' :: a :: b :: rest => do prepend (← hexScalar? [a, b]) (longBasic? false rest)
  | '\\' :: 'u' :: a :: b :: c :: d :: rest => do
    prepend (← hexScalar? [a, b, c, d]) (longBasic? false rest)
  | '\\' :: 'U' :: a :: b :: c :: d :: e :: f :: g :: h :: rest => do
    prepend (← hexScalar? [a, b, c, d, e, f, g, h]) (longBasic? false rest)
  | '\\' :: e :: rest =>
    if joinsLines (e :: rest) then longBasic? true (e :: rest)
    else do prepend (← escaped? e) (longBasic? false rest)
  | '\r' :: '\n' :: rest =>
    if joining then longBasic? true rest else prepend '\r' (prepend '\n' (longBasic? false rest))
  | c :: rest =>
    if joining && (isSpace c || c == '\n') then longBasic? true rest
    else if isControl c && c != '\n' then none
    else prepend c (longBasic? false rest)

/-- The content of a string in three single quotes. -/
def longLiteral? : List Char → Option (List Char × List Char)
  | [] => none
  | '\'' :: '\'' :: '\'' :: '\'' :: '\'' :: rest => some (['\'', '\''], rest)
  | '\'' :: '\'' :: '\'' :: '\'' :: rest => some (['\''], rest)
  | '\'' :: '\'' :: '\'' :: rest => some ([], rest)
  | '\r' :: '\n' :: rest => prepend '\r' (prepend '\n' (longLiteral? rest))
  | c :: rest => if isControl c && c != '\n' then none else prepend c (longLiteral? rest)

/-- A line end right behind the opening quotes of a long string is dropped. -/
def dropFirstLineEnd (text : List Char) : List Char :=
  (lineEnd? text).getD text

/-- A string of any of the four kinds. -/
def string? : List Char → Option (List Char × List Char)
  | '"' :: '"' :: '"' :: rest => longBasic? false (dropFirstLineEnd rest)
  | '\'' :: '\'' :: '\'' :: rest => longLiteral? (dropFirstLineEnd rest)
  | '"' :: rest => basic? rest
  | '\'' :: rest => literal? rest
  | _ => none

/-- Characters of a key without quotes. -/
def isBareKeyChar (c : Char) : Bool :=
  isAsciiDigit c || ('A' ≤ c && c ≤ 'Z') || ('a' ≤ c && c ≤ 'z') || c == '_' || c == '-'

/-- One part of a key. -/
def keyPart? : List Char → Option (List Char × List Char)
  | '"' :: rest => basic? rest
  | '\'' :: rest => literal? rest
  | text => match text.takeWhile isBareKeyChar with
    | [] => none
    | name => some (name, text.dropWhile isBareKeyChar)

/-- A key of parts joined by points. The fuel bounds their number. -/
def key? : Nat → List Char → Option (List (List Char) × List Char)
  | 0, _ => none
  | fuel + 1, text => do
    let (name, rest) ← keyPart? (skipSpace text)
    match skipSpace rest with
    | '.' :: rest =>
      let (names, rest) ← key? fuel rest
      return (name :: names, rest)
    | rest => return ([name], rest)

/-- Groups of digits joined by single underscores. -/
def groupedDigits (isDigit : Char → Bool) : List Char → Option (List Char)
  | [] => none
  | [c] => if isDigit c then some [c] else none
  | c :: '_' :: rest => if isDigit c then (groupedDigits isDigit rest).map (c :: ·) else none
  | c :: rest => if isDigit c then (groupedDigits isDigit rest).map (c :: ·) else none

/-- The number that digits write in a base. -/
def inBase? (base : Nat) (text : List Char) : Option Nat := do
  let isDigit (c : Char) := (Json.hexValue? c).any (· < base)
  let digits ← groupedDigits isDigit text
  digits.foldlM (fun n c => (Json.hexValue? c).map (base * n + ·)) 0

/-- A decimal number without sign. A zero in front stands alone. -/
def decimal? : List Char → Option Nat
  | ['0'] => some 0
  | '0' :: _ => none
  | text => inBase? 10 text

/-- A whole number. Other bases have no sign. -/
def integer? : List Char → Option Int
  | '0' :: 'x' :: rest => (inBase? 16 rest).map Int.ofNat
  | '0' :: 'o' :: rest => (inBase? 8 rest).map Int.ofNat
  | '0' :: 'b' :: rest => (inBase? 2 rest).map Int.ofNat
  | '+' :: rest => (decimal? rest).map Int.ofNat
  | '-' :: rest => (decimal? rest).map fun n => -Int.ofNat n
  | text => (decimal? text).map Int.ofNat

end KeypadCalculator.Toml
