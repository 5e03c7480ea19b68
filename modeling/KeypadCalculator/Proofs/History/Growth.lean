import KeypadCalculator.Proofs.History.Contents

/-!
How a history grows: new entries stand in front of the earlier ones, and what is
beyond the limit is dropped. Growing twice is growing once by both.
-/

namespace KeypadCalculator

/-- The beginning of a list does not depend on what is cut off behind it. -/
theorem take_append_take {α : Type} (front rest : List α) (kept : Nat) :
    (front ++ rest.take kept).take kept = (front ++ rest).take kept := by
  rw [List.take_append, List.take_append, List.take_take, Nat.min_eq_left (Nat.sub_le kept _)]

namespace Archive

/-- The second archive is the first one with new entries, which are given in the order in
which they were made. They are saved wherever a file can be made. -/
structure Gains (a b : Archive) (new : List Entry) : Prop where
  entries_eq : b.history.entries = (new.reverse ++ a.history.entries).take a.history.limit
  limit_eq : b.history.limit = a.history.limit
  file_eq : b.file =
    if new = [] then a.file else (a.file.saveEntries b.history.entries).toOption.getD a.file

theorem Gains.refl {a : Archive} (h : a.history.entries.length ≤ a.history.limit) :
    a.Gains a [] :=
  ⟨(List.take_of_length_le h).symm, rfl, rfl⟩

theorem gains_record (a : Archive) (expression result : List Char) (timestamp : UInt64) :
    a.Gains (a.record expression result timestamp)
      [{ id := a.history.nextId timestamp, expression, result, timestamp }] :=
  ⟨rfl, rfl, rfl⟩

theorem Gains.length_le {a b : Archive} {new : List Entry} (h : a.Gains b new) :
    b.history.entries.length ≤ b.history.limit := by
  rw [h.entries_eq, h.limit_eq]
  exact List.length_take_le _ _

theorem length_ofFile_le (file : StoredFile) (limit : Nat) :
    (ofFile file limit).history.entries.length ≤ (ofFile file limit).history.limit :=
  List.length_take_le _ _

/-- Saving twice leaves what is saved last. -/
theorem saveEntries_saveEntries (file : StoredFile) (first second : List Entry) :
    let saved := (file.saveEntries first).toOption.getD file
    (saved.saveEntries second).toOption.getD saved =
      (file.saveEntries second).toOption.getD file := by
  cases file <;> rfl

theorem Gains.trans {a b c : Archive} {first second : List Entry} (h : a.Gains b first)
    (hNext : b.Gains c second) : a.Gains c (first ++ second) where
  entries_eq := by
    rw [hNext.entries_eq, h.entries_eq, h.limit_eq, take_append_take, List.reverse_append,
      List.append_assoc]
  limit_eq := hNext.limit_eq.trans h.limit_eq
  file_eq := by
    rw [hNext.file_eq, h.file_eq]
    by_cases hFirst : first = []
    · simp [hFirst]
    · by_cases hSecond : second = []
      · have hSame : c.history.entries = b.history.entries := by
          rw [hNext.entries_eq, hSecond, h.limit_eq, List.reverse_nil, List.nil_append,
            h.entries_eq, List.take_take, Nat.min_self]
        simp [hFirst, hSecond, hSame]
      · simp only [hFirst, hSecond, List.append_eq_nil_iff, false_and, if_false]
        exact saveEntries_saveEntries a.file b.history.entries c.history.entries

/-- A history that grew has entries of the earlier one and new ones. -/
theorem Gains.allEntries {P : Entry → Prop} {a b : Archive} {new : List Entry}
    (h : a.Gains b new) (hOld : a.AllEntries P) (hNew : ∀ e ∈ new, P e) : b.AllEntries P := by
  have hMemory : ∀ e ∈ b.history.entries, P e := by
    intro e hMem
    rw [h.entries_eq] at hMem
    rcases List.mem_append.mp (List.mem_of_mem_take hMem) with hMade | hKept
    · exact hNew e (List.mem_reverse.mp hMade)
    · exact hOld.memory e hKept
  refine ⟨hMemory, ?_⟩
  rw [h.file_eq]
  split
  · exact hOld.file
  · have hFile : a.file.Satisfies fun entries => ∀ e ∈ entries, P e := hOld.file
    exact hFile.saveEntries hMemory

/-- Opened from a file and grown, a history has the new entries in front of those that
the file holds. -/
theorem Gains.entries_ofFile {file : StoredFile} {limit : Nat} {b : Archive} {new : List Entry}
    (h : (ofFile file limit).Gains b new) :
    b.history.entries =
      (new.reverse ++ file.loadEntries.toOption.getD []).take (max limit 1) := by
  rw [h.entries_eq]
  exact take_append_take ..

end Archive

end KeypadCalculator
