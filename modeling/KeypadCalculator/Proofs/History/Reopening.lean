import KeypadCalculator.History.Archive
import KeypadCalculator.Proofs.History.Document
import Mathlib.Data.List.ReduceOption

/-!
Closing a history and opening it again. As long as every change reaches the
file, an archive holds what its file holds, so that opening it again makes no
difference. What is in memory never depends on the file at all.
-/

namespace KeypadCalculator

/-- What changes a history. -/
inductive Change where
  | record (expression result : List Char) (timestamp : UInt64)
  | clear
  deriving DecidableEq, Repr

namespace Archive

/-- The archive after a change. -/
def change (a : Archive) : Change → Archive
  | .record expression result timestamp => a.record expression result timestamp
  | .clear => a.clear.1

/-- Whether a change reaches the file: the entries are saved, or the file is
removed. -/
def saves (a : Archive) : Change → Bool
  | .record expression result timestamp =>
    (a.file.saveEntries (a.history.record expression result timestamp).entries).isOk
  | .clear => a.clear.2.isOk

/-- What a change gives back. A record gives back the entry that it made, which
is the first one from then on. -/
def reply (a : Archive) : Change → Option Entry
  | .record expression result timestamp =>
    (a.record expression result timestamp).history.entries.head?
  | .clear => none

/-- The archive after changes in order. -/
def changeAll (a : Archive) (changes : List Change) : Archive :=
  changes.foldl change a

/-- Whether all of the changes reach the file. -/
def savesAll (a : Archive) : List Change → Bool
  | [] => true
  | c :: changes => a.saves c && (a.change c).savesAll changes

/-- A change, or the archive opened again. -/
def step (limit : Nat) (a : Archive) : Option Change → Archive
  | some c => a.change c
  | none => ofFile a.file limit

/-- The archive after changes, between which it is opened again at any points. -/
def stepAll (limit : Nat) (a : Archive) (steps : List (Option Change)) : Archive :=
  steps.foldl (step limit) a

/-- The archive is what its file opens as. -/
def Mirrors (limit : Nat) (a : Archive) : Prop :=
  ofFile a.file limit = a

theorem mirrors_ofFile (limit : Nat) (file : StoredFile) : Mirrors limit (ofFile file limit) :=
  rfl

theorem Mirrors.limit_eq {limit : Nat} {a : Archive} (h : Mirrors limit a) :
    a.history.limit = max limit 1 := by
  rw [← h]
  rfl

theorem mirrors_of_loadEntries {limit : Nat} {a : Archive}
    (hLoad : a.file.loadEntries = .ok a.history.entries) (hLimit : a.history.limit = max limit 1)
    (hLength : a.history.entries.length ≤ a.history.limit) : Mirrors limit a := by
  obtain ⟨⟨entries, bound, hPos⟩, file⟩ := a
  simp only at hLoad hLimit hLength
  subst bound
  simp only [Mirrors, ofFile, hLoad, Except.toOption, Option.getD_some, History.ofEntries,
    List.take_of_length_le hLength]

/-- A change that reaches the file leaves there what it leaves in memory. -/
theorem Mirrors.change {limit : Nat} {a : Archive} (h : Mirrors limit a) {c : Change}
    (hSaves : a.saves c = true) : Mirrors limit (a.change c) := by
  cases c with
  | record expression result timestamp =>
      rw [saves] at hSaves
      cases hSaved : a.file.saveEntries (a.history.record expression result timestamp).entries with
      | error e =>
          rw [hSaved] at hSaves
          cases hSaves
      | ok saved =>
          have hFile : (a.record expression result timestamp).file =
              .text (Entry.documentOf (a.history.record expression result timestamp).entries) := by
            rw [record, hSaved, StoredFile.eq_text_of_saveEntries hSaved]
            rfl
          refine mirrors_of_loadEntries ?_ h.limit_eq (List.length_take_le _ _)
          rw [Archive.change, hFile, StoredFile.loadEntries_documentOf]
          rfl
  | clear =>
      rw [saves] at hSaves
      cases hRemoved : a.file.remove with
      | error e =>
          rw [clear, hRemoved] at hSaves
          cases hSaves
      | ok removed =>
          obtain rfl := StoredFile.eq_absent_of_remove hRemoved
          have hClear : a.change .clear = { history := a.history.clear, file := .absent } := by
            rw [Archive.change, clear, hRemoved]
          rw [hClear]
          exact mirrors_of_loadEntries rfl h.limit_eq (Nat.zero_le _)

theorem Mirrors.stepAll {limit : Nat} {a : Archive} (h : Mirrors limit a)
    {steps : List (Option Change)} (hSaves : a.savesAll steps.reduceOption = true) :
    a.stepAll limit steps = a.changeAll steps.reduceOption := by
  induction steps generalizing a with
  | nil => rfl
  | cons s steps ih =>
      cases s with
      | none =>
          rw [List.reduceOption_cons_of_none] at hSaves ⊢
          rw [Archive.stepAll, List.foldl_cons, step, h]
          exact ih h hSaves
      | some c =>
          rw [List.reduceOption_cons_of_some] at hSaves ⊢
          rw [savesAll, Bool.and_eq_true] at hSaves
          exact ih (h.change hSaves.1) hSaves.2

theorem savesAll_of_append {a : Archive} {front rest : List Change}
    (h : a.savesAll (front ++ rest) = true) : a.savesAll front = true := by
  induction front generalizing a with
  | nil => rfl
  | cons c front ih =>
      rw [List.cons_append, savesAll, Bool.and_eq_true] at h
      rw [savesAll, h.1, ih h.2, Bool.and_self]

end Archive

namespace Change

/-- The id of the entry after those of a journal: its timestamp, unless the latest
entry has an id as great. -/
def idAfter (timestamp : UInt64) : List Entry → UInt64
  | latest :: _ => if timestamp ≤ latest.id then latest.id + 1 else timestamp
  | [] => timestamp

/-- A journal after a change. -/
def enter (journal : List Entry) : Change → List Entry
  | .record expression result timestamp =>
    { id := idAfter timestamp journal, expression, result, timestamp } :: journal
  | .clear => []

/-- The entries of all records since the last clearing, the latest first. -/
def journal (changes : List Change) : List Entry :=
  changes.foldl enter []

end Change

namespace Archive

theorem limit_change (a : Archive) (c : Change) :
    (a.change c).history.limit = a.history.limit := by
  cases c with
  | record expression result timestamp => rfl
  | clear =>
      rw [change, clear]
      split <;> rfl

theorem entries_clear (a : Archive) : a.clear.1.history.entries = [] := by
  rw [clear]
  split <;> rfl

/-- Memory keeps the beginning of the journal. The latest entry is in it, so that
the next one is numbered as in the journal. -/
theorem entries_change {a : Archive} {journal : List Entry}
    (h : a.history.entries = journal.take a.history.limit) (c : Change) :
    (a.change c).history.entries = (c.enter journal).take (a.change c).history.limit := by
  rw [limit_change]
  cases c with
  | clear => exact a.entries_clear.trans List.take_nil.symm
  | record expression result timestamp =>
      obtain ⟨kept, hKept⟩ := Nat.exists_eq_add_one_of_ne_zero (Nat.ne_of_gt a.history.limit_pos)
      rw [hKept] at h ⊢
      have hId : a.history.nextId timestamp = Change.idAfter timestamp journal := by
        rw [History.nextId, h]
        cases journal <;> rfl
      simp only [change, record, History.record, hId, hKept, h, Change.enter, List.take_succ_cons]
      rw [List.take_take, Nat.min_eq_left (Nat.le_succ kept)]

theorem entries_changeAll {a : Archive} {journal : List Entry}
    (h : a.history.entries = journal.take a.history.limit) (changes : List Change) :
    (a.changeAll changes).history.entries =
      (changes.foldl Change.enter journal).take a.history.limit := by
  induction changes generalizing a journal with
  | nil => exact h
  | cons c changes ih =>
      have hRest := ih (entries_change h c)
      rwa [limit_change] at hRest

/-- The archive after changes, when anything at all may stand at the path of its
file each time. -/
def changeAmid (a : Archive) (changes : List (StoredFile × Change)) : Archive :=
  changes.foldl (fun a c => { a with file := c.1 }.change c.2) a

theorem history_change {a b : Archive} (h : a.history = b.history) (c : Change) :
    (a.change c).history = (b.change c).history := by
  cases c with
  | record expression result timestamp =>
      simp only [change, record, h]
  | clear =>
      simp only [change, clear]
      split <;> split <;> simp [h]

theorem history_changeAmid {a b : Archive} (h : a.history = b.history)
    (changes : List (StoredFile × Change)) :
    (a.changeAmid changes).history = (b.changeAll (changes.map Prod.snd)).history := by
  induction changes generalizing a b with
  | nil => exact h
  | cons c changes ih =>
      have hAmid : ({ a with file := c.1 } : Archive).history = b.history := h
      exact ih (history_change hAmid c.2)

/-- Where a file can be made, every change reaches it. -/
theorem savesAll_of_writable {a : Archive}
    (h : a.file = .absent ∨ ∃ contents, a.file = .text contents) (changes : List Change) :
    a.savesAll changes = true := by
  induction changes generalizing a with
  | nil => rfl
  | cons c changes ih =>
      have hChange : a.saves c = true ∧ ((a.change c).file = .absent ∨
          ∃ contents, (a.change c).file = .text contents) := by
        cases c <;> rcases h with hFile | ⟨contents, hFile⟩ <;>
          simp [saves, change, record, clear, hFile, StoredFile.saveEntries, StoredFile.remove,
            Except.isOk, Except.toBool, Except.toOption]
      rw [savesAll, hChange.1, ih hChange.2, Bool.and_self]

/-- As long as every change reaches the file, opening the history again at any
points shows the same at every moment: the same entries, and the same entry given
back by the next record. Begun without a file, these are the latest entries since
the last clearing, as many as are kept. Whatever the file operations do, memory
holds what it would hold if none of them failed. -/
theorem stepAll_eq_changeAll (limit : Nat) (file : StoredFile) (steps : List (Option Change))
    (h : (ofFile file limit).savesAll steps.reduceOption = true) :
    (∀ front, front <+: steps →
      (ofFile file limit).stepAll limit front =
          (ofFile file limit).changeAll front.reduceOption ∧
        (∀ c, ((ofFile file limit).stepAll limit front).reply c =
          ((ofFile file limit).changeAll front.reduceOption).reply c) ∧
        (file = .absent → ((ofFile file limit).stepAll limit front).history.entries =
          (Change.journal front.reduceOption).take (max limit 1))) ∧
      ∀ (a : Archive) (changes : List (StoredFile × Change)),
        (a.changeAmid changes).history =
            ({ a with file := .absent }.changeAll (changes.map Prod.snd)).history ∧
          { a with file := .absent }.savesAll (changes.map Prod.snd) = true := by
  refine ⟨?_, ?_⟩
  · rintro front ⟨rest, rfl⟩
    rw [List.reduceOption_append] at h
    have hSame : (ofFile file limit).stepAll limit front =
        (ofFile file limit).changeAll front.reduceOption :=
      (mirrors_ofFile limit file).stepAll (savesAll_of_append h)
    refine ⟨hSame, fun c => by rw [hSame], ?_⟩
    rintro rfl
    rw [hSame]
    exact entries_changeAll rfl front.reduceOption
  · intro a changes
    have hMemory : a.history = ({ a with file := .absent } : Archive).history := rfl
    exact ⟨history_changeAmid hMemory changes, savesAll_of_writable (.inl rfl) _⟩

/-- A file that holds no history, and room for one entry. -/
theorem stepAll_eq_changeAll_unparsable :
    let file := StoredFile.text ['[', 'x']
    let steps : List (Option Change) := [some (.record ['1', '+', '2'] ['3'] 5), none, none,
      some (.record ['6', '×', '7'] ['4', '2'] 5), none, some .clear, none,
      some (.record ['2', '-', '3'] ['-', '1'] 4)]
    (ofFile file 0).savesAll steps.reduceOption = true ∧
      (∀ front, front <+: steps →
        (ofFile file 0).stepAll 0 front = (ofFile file 0).changeAll front.reduceOption ∧
          (∀ c, ((ofFile file 0).stepAll 0 front).reply c =
            ((ofFile file 0).changeAll front.reduceOption).reply c) ∧
          (file = .absent → ((ofFile file 0).stepAll 0 front).history.entries =
            (Change.journal front.reduceOption).take (max 0 1))) ∧
        ∀ (a : Archive) (changes : List (StoredFile × Change)),
          (a.changeAmid changes).history =
              ({ a with file := .absent }.changeAll (changes.map Prod.snd)).history ∧
            { a with file := .absent }.savesAll (changes.map Prod.snd) = true := by
  intro file steps
  have hSaves : (ofFile file 0).savesAll steps.reduceOption = true := by decide
  exact ⟨hSaves, stepAll_eq_changeAll 0 file steps hSaves⟩

end Archive

end KeypadCalculator
