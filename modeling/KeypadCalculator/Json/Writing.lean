/-!
Writing JSON, one item or member a line and two spaces deeper at each level.
-/

namespace KeypadCalculator.Json

/-- A lower-case hexadecimal digit. -/
def hexDigit (n : Nat) : Char :=
  Nat.digitChar n

/-- A character inside a string. Quotes, backslashes and control characters are
escaped, and nothing else. -/
def escape (c : Char) : List Char :=
  if c = '"' then ['\\', '"']
  else if c = '\\' then ['\\', '\\']
  else if c = '\x08' then ['\\', 'b']
  else if c = '\x0c' then ['\\', 'f']
  else if c = '\n' then ['\\', 'n']
  else if c = '\r' then ['\\', 'r']
  else if c = '\t' then ['\\', 't']
  else if c.toNat < 0x20 then
    ['\\', 'u', '0', '0', hexDigit (c.toNat / 16), hexDigit (c.toNat % 16)]
  else [c]

def quoted (content : List Char) : List Char :=
  '"' :: content.flatMap escape ++ ['"']

/-- The spaces in front of a line. -/
def indent (depth : Nat) : List Char :=
  List.replicate (2 * depth) ' '

/-- Lines between brackets, with commas between them; only the brackets where
there is no line. The depth is that of the closing bracket. -/
def block (opening closing : Char) (depth : Nat) (lines : List (List Char)) : List Char :=
  if lines.isEmpty then [opening, closing]
  else
    opening :: [','].intercalate (lines.map fun line => '\n' :: indent (depth + 1) ++ line) ++
      '\n' :: indent depth ++ [closing]

/-- A member of an object whose value is written already. -/
def member (key value : List Char) : List Char :=
  quoted key ++ [':', ' '] ++ value

end KeypadCalculator.Json
