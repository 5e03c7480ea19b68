import KeypadCalculator.History.Store

/-!
The history: settled calculations, the latest first, of which at most a fixed
number is kept.

A failure of the store never loses what is in memory and never stops a
calculation.
-/

namespace KeypadCalculator

/-- The entries in memory, and how many are kept. -/
structure History where
  entries : List Entry
  limit : Nat
  limit_pos : 0 < limit
  deriving DecidableEq, Repr

namespace History

/-- A history keeps at least one entry, and the latest entries of those that it
is given. -/
def ofEntries (entries : List Entry) (limit : Nat) : History :=
  { entries := entries.take (max limit 1), limit := max limit 1, limit_pos := by omega }

/-- The id of the next entry: its timestamp, unless an id as great is in use
already; then the one after the latest. -/
def nextId (h : History) (timestamp : UInt64) : UInt64 :=
  match h.entries with
  | latest :: _ => if timestamp ≤ latest.id then latest.id + 1 else timestamp
  | [] => timestamp

/-- Put a calculation in front, and drop what is beyond the limit. -/
def record (h : History) (expression result : List Char) (timestamp : UInt64) : History :=
  let entry : Entry := { id := h.nextId timestamp, expression, result, timestamp }
  { h with entries := (entry :: h.entries).take h.limit }

/-- Forget every entry. -/
def clear (h : History) : History :=
  { h with entries := [] }

end History

/-- A history together with the file that it is saved to after every change. -/
structure Archive where
  history : History
  file : StoredFile
  deriving DecidableEq, Repr

namespace Archive

/-- Begin with the entries of a file. A file that cannot be read or parsed
begins an empty history. -/
def ofFile (file : StoredFile) (limit : Nat) : Archive :=
  { history := History.ofEntries (file.loadEntries.toOption.getD []) limit, file }

/-- Record a calculation and save. If that fails the file stays as it is. -/
def record (a : Archive) (expression result : List Char) (timestamp : UInt64) : Archive :=
  let history := a.history.record expression result timestamp
  { history, file := (a.file.saveEntries history.entries).toOption.getD a.file }

/-- Forget every entry and remove the file, which may fail. -/
def clear (a : Archive) : Archive × Except StoreError Unit :=
  match a.file.remove with
  | .ok file => ({ history := a.history.clear, file }, .ok ())
  | .error e => ({ a with history := a.history.clear }, .error e)

end Archive

end KeypadCalculator
