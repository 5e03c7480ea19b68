import KeypadCalculator.History.Entry

/-!
The file that the history is kept in.
-/

namespace KeypadCalculator

/-- What stands at a path. -/
inductive StoredFile where
  | absent
  | text (contents : List Char)
  /-- A file whose bytes are not UTF-8. -/
  | undecodable
  | directory
  /-- A file stands where a directory on the way should be. -/
  | unreachable
  deriving DecidableEq, Repr

/-- Why the store failed. -/
inductive StoreError where
  | cannotRead
  | cannotParse
  | cannotCreateDirectory
  | cannotWrite
  | cannotRemove
  deriving DecidableEq, Repr

/-- The sentence that a user reads about the file at `path` in the directory
`parent`. -/
def StoreError.message (path parent : List Char) : StoreError → List Char
  | .cannotRead => "Failed to read history from ".toList ++ path
  | .cannotParse => "Failed to parse history in ".toList ++ path
  | .cannotCreateDirectory => "Failed to create ".toList ++ parent
  | .cannotWrite => "Failed to write history to ".toList ++ path
  | .cannotRemove => "Failed to remove ".toList ++ path

namespace StoredFile

/-- Something is there, as far as a look at the path can tell. -/
def exists? : StoredFile → Bool
  | .absent | .unreachable => false
  | _ => true

/-- The stored entries. No file holds no entries. -/
def loadEntries : StoredFile → Except StoreError (List Entry)
  | .absent | .unreachable => .ok []
  | .text contents => match Entry.ofDocument? contents with
    | some entries => .ok entries
    | none => .error .cannotParse
  | .undecodable | .directory => .error .cannotRead

/-- Replace the stored entries, creating the directories on the way. -/
def saveEntries (entries : List Entry) : StoredFile → Except StoreError StoredFile
  | .unreachable => .error .cannotCreateDirectory
  | .directory => .error .cannotWrite
  | _ => .ok (.text (Entry.documentOf entries))

/-- Remove the file. Where there is none, nothing is to be done. -/
def remove : StoredFile → Except StoreError StoredFile
  | .unreachable | .directory => .error .cannotRemove
  | _ => .ok .absent

end StoredFile

end KeypadCalculator
