import KeypadCalculator.CommandLine.Files
import KeypadCalculator.Proofs.History.Document

/-!
What stands at a path after something was put there. A file is made at the end of a
way of directories, so that making it does not change where any path leads.
-/

namespace KeypadCalculator.CommandLine.Files

open Pathname

variable {files : Files}

theorem isDirectory_of_isPrefix {location below : Location} (h : files.isDirectory below = true)
    (hPrefix : location <+: below) : files.isDirectory location = true := by
  simp only [isDirectory, Bool.or_eq_true, List.any_eq_true, List.isPrefixOf_iff_prefix] at h ⊢
  rcases h with (hWorking | ⟨other, hMem, hOther⟩) | ⟨file, hMem, hFile⟩
  · exact .inl (.inl (hPrefix.trans hWorking))
  · exact .inl (.inr ⟨other, hMem, hPrefix.trans hOther⟩)
  · exact .inr ⟨file, hMem, hPrefix.trans hFile⟩

/-- Every path begins at a directory. -/
theorem isDirectory_start (files : Files) (path : List Char) :
    files.isDirectory (files.start path) = true := by
  have hPrefix : files.start path <+: files.workingDirectory := by
    rw [start]
    split
    · exact List.nil_prefix
    · exact List.prefix_rfl
  simp [isDirectory, List.isPrefixOf_iff_prefix, hPrefix]

/-- How names lead from one location to another. -/
inductive Leads (files : Files) : Location → List (List Char) → Location → Prop where
  | here (location : Location) : Leads files location [] location
  | stay {location target : Location} {name : List Char} {names : List (List Char)}
      (hStays : stays name = true) (hRest : Leads files location names target) :
      Leads files location (name :: names) target
  | up {location target : Location} {name : List Char} {names : List (List Char)}
      (hMoves : stays name = false) (hUp : goesUp name = true)
      (hRest : Leads files location.dropLast names target) :
      Leads files location (name :: names) target
  | down {location target : Location} {name : List Char} {names : List (List Char)}
      (hMoves : stays name = false) (hDown : goesUp name = false)
      (hDirectory : files.isDirectory (location ++ [name]) = true)
      (hRest : Leads files (location ++ [name]) names target) :
      Leads files location (name :: names) target
  | last {location : Location} {name : List Char} (hMoves : stays name = false)
      (hDown : goesUp name = false) (hFree : files.isDirectory (location ++ [name]) = false)
      (hName : isName name = true) : Leads files location [name] (location ++ [name])

theorem leads_of_follow {location target : Location} {names : List (List Char)}
    (h : files.follow location names = .ok target) : files.Leads location names target := by
  induction names generalizing location with
  | nil =>
      cases h
      exact .here _
  | cons name names ih =>
      rw [follow] at h
      by_cases hStays : stays name = true
      · rw [if_pos hStays] at h
        exact .stay hStays (ih h)
      rw [if_neg hStays] at h
      rw [Bool.not_eq_true] at hStays
      by_cases hUp : goesUp name = true
      · rw [if_pos hUp] at h
        exact .up hStays hUp (ih h)
      rw [if_neg hUp] at h
      rw [Bool.not_eq_true] at hUp
      by_cases hDirectory : files.isDirectory (location ++ [name]) = true
      · rw [if_pos hDirectory] at h
        exact .down hStays hUp hDirectory (ih h)
      rw [if_neg hDirectory] at h
      rw [Bool.not_eq_true] at hDirectory
      cases hName : isName name with
      | false => simp [hName] at h
      | true =>
          cases names with
          | nil =>
              simp only [hName, List.isEmpty_nil] at h
              cases h
              exact .last hStays hUp hDirectory hName
          | cons next names =>
              cases hFile : (files.contents? (location ++ [name])).isSome <;>
                simp [hName, hFile] at h

theorem Leads.follow_eq {location target : Location} {names : List (List Char)}
    (h : files.Leads location names target) : files.follow location names = .ok target := by
  induction h with
  | here location => rfl
  | stay hStays _ ih => rw [follow, if_pos hStays, ih]
  | up hMoves hUp _ ih => simp [follow, hMoves, hUp, ih]
  | down hMoves hDown hDirectory _ ih => simp [follow, hMoves, hDown, hDirectory, ih]
  | last hMoves hDown hFree hName => simp [follow, hMoves, hDown, hFree, hName]

/-- Names lead from a directory to a directory, or to a place in one. -/
theorem Leads.isDirectory_dropLast {location target : Location} {names : List (List Char)}
    (h : files.Leads location names target) (hLocation : files.isDirectory location = true) :
    files.isDirectory target.dropLast = true := by
  induction h with
  | here location => exact isDirectory_of_isPrefix hLocation (List.dropLast_prefix _)
  | stay _ _ ih => exact ih hLocation
  | up _ _ _ ih => exact ih (isDirectory_of_isPrefix hLocation (List.dropLast_prefix _))
  | down _ _ hDirectory _ ih => exact ih hDirectory
  | last _ _ _ _ => rwa [List.dropLast_concat]

/-- With the same directories names lead to the same locations. -/
theorem Leads.of_isDirectory {files' : Files}
    (hSame : ∀ location, files'.isDirectory location = files.isDirectory location)
    {location target : Location} {names : List (List Char)}
    (h : files.Leads location names target) : files'.Leads location names target := by
  induction h with
  | here location => exact .here location
  | stay hStays _ ih => exact .stay hStays ih
  | up hMoves hUp _ ih => exact .up hMoves hUp ih
  | down hMoves hDown hDirectory _ ih =>
      exact .down hMoves hDown ((hSame _).trans hDirectory) ih
  | last hMoves hDown hFree hName => exact .last hMoves hDown ((hSame _).trans hFree) hName

theorem locate_eq_ok_iff {path : List Char} {location : Location} :
    files.locate path = .ok location ↔
      path.isEmpty = false ∧ isPath path = true ∧
        files.Leads (files.start path) (names path) location := by
  rw [locate]
  cases path.isEmpty with
  | true => simp
  | false =>
      cases isPath path with
      | false => simp
      | true => simpa using ⟨leads_of_follow, Leads.follow_eq⟩

theorem isDirectory_of_locate {path : List Char} {location : Location}
    (h : files.locate path = .ok location) : files.isDirectory location.dropLast = true :=
  (locate_eq_ok_iff.mp h).2.2.isDirectory_dropLast (isDirectory_start files path)

/-- A file in a directory makes no other directory. -/
theorem isDirectory_write {location : Location} (h : files.isDirectory location.dropLast = true)
    (contents : List Char) (other : Location) :
    (files.write location contents).isDirectory other = files.isDirectory other := by
  rw [Bool.eq_iff_iff]
  constructor
  · intro hWritten
    by_cases hAbove : other <+: location.dropLast
    · exact isDirectory_of_isPrefix h hAbove
    · simp only [isDirectory, write, List.any_cons, Bool.or_eq_true, List.any_eq_true,
        List.isPrefixOf_iff_prefix, hAbove, false_or] at hWritten ⊢
      rcases hWritten with hOld | ⟨file, hMem, hFile⟩
      · exact .inl hOld
      · exact .inr ⟨file, (List.mem_filter.mp hMem).1, hFile⟩
  · intro hOld
    simp only [isDirectory, write, List.any_cons, Bool.or_eq_true, List.any_eq_true] at hOld ⊢
    rcases hOld with hOld | ⟨file, hMem, hFile⟩
    · exact .inl hOld
    · by_cases hSame : file.1 = location
      · exact .inr (.inl (hSame ▸ hFile))
      · exact .inr (.inr ⟨file, by simp [hMem, hSame], hFile⟩)

/-- A file is found where it was written. -/
theorem look_write {path : List Char} {location : Location}
    (hLocate : files.locate path = .ok location) (hFree : files.isDirectory location = false)
    (contents : List Char) : (files.write location contents).look path = .text contents := by
  have hSame := isDirectory_write (isDirectory_of_locate hLocate) contents
  have hFound : (files.write location contents).locate path = .ok location := by
    obtain ⟨hSome, hPath, hLeads⟩ := locate_eq_ok_iff.mp hLocate
    exact locate_eq_ok_iff.mpr ⟨hSome, hPath, hLeads.of_isDirectory hSame⟩
  have hContents : (files.write location contents).contents? location = some contents := by
    simp [contents?, write]
  rw [look, hFound]
  simp only [hSame, hFree, hContents, Bool.false_eq_true, if_false]

/-- The files once the directories on the way to a path are made. -/
def withWay (files : Files) (path : List Char) : Files :=
  files.makeWay (files.start path) (parentNames path)

/-- A file can be made at the path, or is there already: no directory is in its place, and
there is a way to it as soon as the directories on the way are made. -/
structure CanHold (files : Files) (path : List Char) : Prop where
  not_directory : files.look path ≠ .directory
  not_unreachable : files.look path ≠ .unreachable
  exists_location : ∃ location, (files.withWay path).locate path = .ok location ∧
    (files.withWay path).isDirectory location = false

theorem look_put {path : List Char} (h : files.CanHold path) (contents : List Char) :
    (files.put path (.text contents)).look path = .text contents := by
  obtain ⟨location, hLocate, hFree⟩ := h.exists_location
  rw [withWay] at hLocate hFree
  simp only [put, hLocate, hFree, Bool.false_eq_true, if_false]
  exact look_write hLocate hFree contents

theorem contents_makeWay (files : Files) (location : Location) (names : List (List Char)) :
    (files.makeWay location names).contents = files.contents := by
  induction names generalizing files location with
  | nil => rfl
  | cons name names ih =>
      simp only [makeWay]
      split
      · exact ih files location
      · split
        · exact ih files location.dropLast
        · split
          · exact ih files (location ++ [name])
          · split
            · exact ih _ (location ++ [name])
            · rfl

theorem saveEntries_of_canHold {path : List Char} (h : files.CanHold path)
    (entries : List Entry) :
    (files.look path).saveEntries entries = .ok (.text (Entry.documentOf entries)) := by
  cases hLook : files.look path with
  | absent | text | undecodable => rfl
  | directory => exact absurd hLook h.not_directory
  | unreachable => exact absurd hLook h.not_unreachable

/-- Where no file can be made, none is changed by what is saved. -/
theorem contents_put_of_not_canHold {path : List Char} (h : ¬ files.CanHold path)
    {entries : List Entry} {saved : StoredFile}
    (hSaved : (files.look path).saveEntries entries = .ok saved) :
    (files.put path saved).contents = files.contents := by
  have hDirectory : files.look path ≠ .directory := by
    intro hLook
    rw [hLook] at hSaved
    cases hSaved
  have hReachable : files.look path ≠ .unreachable := by
    intro hLook
    rw [hLook] at hSaved
    cases hSaved
  have hWay := contents_makeWay files (files.start path) (parentNames path)
  obtain rfl := StoredFile.eq_text_of_saveEntries hSaved
  simp only [put]
  split
  · rename_i location hLocate
    split
    · exact hWay
    · rename_i hFree
      exact absurd ⟨hDirectory, hReachable, location, hLocate, by simpa [withWay] using hFree⟩ h
  · exact hWay

end KeypadCalculator.CommandLine.Files
