import KeypadCalculator.Json.Reading
import KeypadCalculator.Json.Writing

/-!
Entries of the history, and the document that they are stored in: an array with
one object for each entry.
-/

namespace KeypadCalculator

/-- A settled calculation. The timestamp counts milliseconds since the first of
January 1970. -/
structure Entry where
  id : UInt64
  expression : List Char
  result : List Char
  timestamp : UInt64
  deriving DecidableEq, Repr

namespace Entry

def idKey : List Char := "id".toList
def expressionKey : List Char := "expression".toList
def resultKey : List Char := "result".toList
def timestampKey : List Char := "timestamp".toList

/-- The object of an entry, inside the array. -/
def text (e : Entry) : List Char :=
  Json.block '{' '}' 1 [
    Json.member idKey (Nat.toDigits 10 e.id.toNat),
    Json.member expressionKey (Json.quoted e.expression),
    Json.member resultKey (Json.quoted e.result),
    Json.member timestampKey (Nat.toDigits 10 e.timestamp.toNat)]

/-- The document of a list of entries. -/
def documentOf (entries : List Entry) : List Char :=
  Json.block '[' ']' 0 (entries.map text)

/-- The value of a key that occurs exactly once. -/
def only? (key : List Char) (members : List (List Char × Json)) : Option Json :=
  match members.filter (·.1 == key) with
  | [(_, value)] => some value
  | _ => none

/-- An entry is an object in which each of the four keys occurs once, whatever
else it holds, or an array of exactly the four values. -/
def ofJson? : Json → Option Entry
  | .object members => do
    let members ← members.mapM fun (key, value) => key.map (·, value)
    return {
      id := ← (← only? idKey members).toUInt64?
      expression := ← (← only? expressionKey members).toChars?
      result := ← (← only? resultKey members).toChars?
      timestamp := ← (← only? timestampKey members).toUInt64? }
  | .array [id, expression, result, timestamp] => do
    return {
      id := ← id.toUInt64?
      expression := ← expression.toChars?
      result := ← result.toChars?
      timestamp := ← timestamp.toUInt64? }
  | _ => none

/-- The entries of a document, if every item is an entry. -/
def ofDocument? (text : List Char) : Option (List Entry) :=
  match Json.ofText? text with
  | some (.array items) => items.mapM ofJson?
  | _ => none

end Entry

end KeypadCalculator
