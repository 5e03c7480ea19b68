import KeypadCalculator.History.Archive
import KeypadCalculator.Proofs.History.Document

/-!
Properties of the entries of a history, in memory and in its file: those that the
entries have together, and those that every entry has.
-/

namespace KeypadCalculator

variable {P : Entry → Prop} {Q : List Entry → Prop}

/-- The entries that can be loaded from the file have the property together. -/
def StoredFile.Satisfies (Q : List Entry → Prop) (file : StoredFile) : Prop :=
  ∀ entries, file.loadEntries = .ok entries → Q entries

/-- The entries in memory have the property, and so do those in the file. -/
structure Archive.Satisfies (Q : List Entry → Prop) (a : Archive) : Prop where
  memory : Q a.history.entries
  file : a.file.Satisfies Q

/-- Every entry that can be loaded from the file has the property. -/
def StoredFile.AllEntries (P : Entry → Prop) (file : StoredFile) : Prop :=
  ∀ entries, file.loadEntries = .ok entries → ∀ e ∈ entries, P e

/-- Every entry in memory and in the file has the property. -/
structure Archive.AllEntries (P : Entry → Prop) (a : Archive) : Prop where
  memory : ∀ e ∈ a.history.entries, P e
  file : a.file.AllEntries P

namespace StoredFile

theorem satisfies_of_loadEntries {file : StoredFile} {entries : List Entry}
    (hLoad : file.loadEntries = .ok entries) (h : Q entries) : file.Satisfies Q := by
  intro loaded hLoaded
  obtain rfl := Except.ok.inj (hLoad.symm.trans hLoaded)
  exact h

theorem satisfies_documentOf {entries : List Entry} (h : Q entries) :
    (StoredFile.text (Entry.documentOf entries)).Satisfies Q :=
  satisfies_of_loadEntries (loadEntries_documentOf entries) h

theorem Satisfies.saveEntries {file : StoredFile} {entries : List Entry}
    (hFile : file.Satisfies Q) (h : Q entries) :
    ((file.saveEntries entries).toOption.getD file).Satisfies Q := by
  cases file with
  | unreachable | directory => exact hFile
  | absent | text | undecodable => exact satisfies_documentOf h

end StoredFile

namespace Archive

/-- Opening keeps what holds of no entries and of the beginning of any list that
has it. -/
theorem satisfies_ofFile {file : StoredFile} (h : file.Satisfies Q) (hNil : Q [])
    (hTake : ∀ entries kept, Q entries → Q (entries.take kept)) (limit : Nat) :
    (ofFile file limit).Satisfies Q where
  memory := by
    refine hTake _ _ ?_
    cases hLoad : file.loadEntries with
    | error failure => exact hNil
    | ok entries => exact h entries hLoad
  file := h

theorem Satisfies.record {a : Archive} (h : a.Satisfies Q) {expression result : List Char}
    {timestamp : UInt64} (hNew : Q (a.history.record expression result timestamp).entries) :
    (a.record expression result timestamp).Satisfies Q :=
  ⟨hNew, h.file.saveEntries hNew⟩

theorem Satisfies.clear {a : Archive} (h : a.Satisfies Q) (hNil : Q []) :
    a.clear.1.Satisfies Q := by
  rw [Archive.clear]
  split
  · rename_i removed hRemoved
    obtain rfl := StoredFile.eq_absent_of_remove hRemoved
    exact ⟨hNil, StoredFile.satisfies_of_loadEntries rfl hNil⟩
  · exact ⟨hNil, h.file⟩

theorem allEntries_iff {a : Archive} :
    a.AllEntries P ↔ a.Satisfies fun entries => ∀ e ∈ entries, P e :=
  ⟨fun h => ⟨h.memory, h.file⟩, fun h => ⟨h.memory, h.file⟩⟩

theorem allEntries_ofFile {file : StoredFile} (h : file.AllEntries P) (limit : Nat) :
    (ofFile file limit).AllEntries P :=
  allEntries_iff.mpr <| satisfies_ofFile h (by rintro e ⟨⟩)
    (fun _ _ hAll e hMem => hAll e (List.mem_of_mem_take hMem)) limit

end Archive

end KeypadCalculator
