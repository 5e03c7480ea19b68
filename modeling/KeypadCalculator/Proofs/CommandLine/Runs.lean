import KeypadCalculator.Proofs.CommandLine.Paths
import KeypadCalculator.Proofs.CommandLine.Recording

/-!
Runs of the program one after the other, on the files that they leave to each
other. A run puts its calculations in front of the entries that its history file
held, and whatever the arguments and inputs are, every entry that is added to a file
is a calculation that can be made again.
-/

namespace KeypadCalculator

namespace CommandLine

namespace Files

/-- The entry is one of those that a file holds. -/
def Holds (files : Files) (e : Entry) : Prop :=
  ∃ location contents entries, (location, contents) ∈ files.contents ∧
    (StoredFile.text contents).loadEntries = .ok entries ∧ e ∈ entries

/-- Every entry that a file holds has the property. -/
def AllEntries (P : Entry → Prop) (files : Files) : Prop :=
  ∀ e, files.Holds e → P e

variable {P : Entry → Prop} {files : Files}

theorem AllEntries.text (h : files.AllEntries P) {location : Location} {contents : List Char}
    (hMem : (location, contents) ∈ files.contents) : (StoredFile.text contents).AllEntries P :=
  fun entries hLoad e hEntry => h e ⟨location, contents, entries, hMem, hLoad, hEntry⟩

theorem AllEntries.of_contents (h : ∀ location contents, (location, contents) ∈ files.contents →
    (StoredFile.text contents).AllEntries P) : files.AllEntries P := by
  rintro e ⟨location, contents, entries, hMem, hLoad, hEntry⟩
  exact h location contents hMem entries hLoad e hEntry

theorem AllEntries.look (h : files.AllEntries P) (path : List Char) :
    (files.look path).AllEntries P := by
  have hNone {file : StoredFile} (hEmpty : file.loadEntries = .ok []) : file.AllEntries P :=
    StoredFile.satisfies_of_loadEntries hEmpty (by rintro e ⟨⟩)
  rw [Files.look]
  split
  · exact hNone rfl
  · exact hNone rfl
  · split
    · rintro entries ⟨⟩
    · split
      · rename_i location _ _ _ contents hContents
        obtain ⟨before, behind, hFile, -⟩ := List.lookup_eq_some_iff.mp hContents
        have hMem : (location, contents) ∈ files.contents := by
          rw [hFile]
          exact List.mem_append_right before List.mem_cons_self
        exact h.text hMem
      · exact hNone rfl

theorem AllEntries.write (h : files.AllEntries P) {location : Location} {contents : List Char}
    (hNew : (StoredFile.text contents).AllEntries P) :
    (files.write location contents).AllEntries P := by
  refine .of_contents fun other text hMem => ?_
  rcases List.mem_cons.mp hMem with hEq | hOld
  · obtain ⟨rfl, rfl⟩ := Prod.mk.inj hEq
    exact hNew
  · exact h.text (List.mem_of_mem_filter hOld)

theorem AllEntries.put (h : files.AllEntries P) {stored : StoredFile}
    (hStored : stored.AllEntries P) (path : List Char) : (files.put path stored).AllEntries P := by
  cases stored with
  | undecodable | directory | unreachable => exact h
  | absent =>
      simp only [Files.put]
      split
      · exact .of_contents fun _ _ hMem => h.text (List.mem_of_mem_filter hMem)
      · exact h
  | text contents =>
      have hWay (location : Location) (names : List (List Char)) :
          (files.makeWay location names).AllEntries P := by
        refine .of_contents fun _ _ hMem => ?_
        rw [contents_makeWay] at hMem
        exact h.text hMem
      simp only [Files.put]
      split
      · split
        · exact hWay _ _
        · exact (hWay _ _).write hStored
      · exact hWay _ _

/-- The entries that can be loaded from a path: none if that fails. -/
def entriesAt (files : Files) (path : List Char) : List Entry :=
  (files.look path).loadEntries.toOption.getD []

/-- The second files are the first ones after new entries came to a path, given in
the order in which they were made. If there are any and a file can be made, it holds
them, the last one first, in front of those that it held, as many as are kept.
Otherwise no file is another one than before. -/
structure Enters (before after : Files) (path : List Char) (limit : Nat) (new : List Entry) :
    Prop where
  of_nil : new = [] → after = before
  of_canHold : new ≠ [] → before.CanHold path → (after.look path).loadEntries =
    .ok ((new.reverse ++ before.entriesAt path).take (max limit 1))
  of_not_canHold : new ≠ [] → ¬ before.CanHold path → after.contents = before.contents

/-- What is saved of an archive comes to the path that it was opened from. -/
theorem enters_of_gains {files : Files} {path : List Char} {limit : Nat} {b : Archive}
    {new : List Entry} (h : (Archive.ofFile (files.look path) limit).Gains b new) :
    files.Enters (if b.file = files.look path then files else files.put path b.file) path limit
      new := by
  by_cases hNew : new = []
  · have hSame : b.file = files.look path := by
      rw [h.file_eq, if_pos hNew]
      rfl
    rw [if_pos hSame]
    exact ⟨fun _ => rfl, fun hSome => absurd hNew hSome, fun hSome => absurd hNew hSome⟩
  · have hFile : b.file =
        ((files.look path).saveEntries b.history.entries).toOption.getD (files.look path) := by
      rw [h.file_eq, if_neg hNew]
      rfl
    refine ⟨fun hNil => absurd hNil hNew, fun _ hHolds => ?_, fun _ hNone => ?_⟩
    · rw [saveEntries_of_canHold hHolds] at hFile
      have hStands : (if b.file = files.look path then files
          else files.put path b.file).look path = b.file := by
        split
        · rename_i hSame
          exact hSame.symm
        · rw [hFile]
          exact look_put hHolds _
      rw [hStands, hFile, entriesAt, ← h.entries_ofFile]
      exact StoredFile.loadEntries_documentOf b.history.entries
    · split
      · rfl
      · rename_i hOther
        cases hSaved : (files.look path).saveEntries b.history.entries with
        | error failure =>
            rw [hSaved] at hFile
            exact absurd hFile hOther
        | ok saved =>
            rw [hFile, hSaved]
            exact contents_put_of_not_canHold hNone hSaved

end Files

/-- The commands that make calculations. -/
def Command.Calculates : Command → Prop
  | .eval _ _ _ | .repl => True
  | .list _ | .clear | .check _ _ => False

/-- A calculation leaves the archive of the history file with an entry for each of its
recordings. -/
theorem exists_records_execute {command : Command} (h : command.Calculates)
    (settings : Settings) (clock : Clock) (input path : List Char) (stored : StoredFile) :
    ∃ b, ((execute Clock.look settings command input (some (path, stored))).run clock).1.2 =
        some (path, b.file) ∧
      Records clock (recordings settings input command)
        (Archive.ofFile stored settings.historyLimit) b := by
  cases command with
  | eval expression preview noHistory =>
      exact run_runEval settings clock expression preview noHistory path stored
  | repl => exact run_runRepl settings clock input path stored
  | list | clear | check => cases h

/-- The other commands keep the history file or remove it. -/
theorem execute_of_not_calculates {command : Command} (h : ¬ command.Calculates)
    (settings : Settings) (clock : Clock) (input path : List Char) (stored : StoredFile) :
    ∃ left, ((execute Clock.look settings command input (some (path, stored))).run clock).1.2 =
        some (path, left) ∧ (left = stored ∨ left = .absent) := by
  cases command with
  | eval | repl => exact absurd trivial h
  | list limit => exact ⟨stored, rfl, .inl rfl⟩
  | check expression next => exact ⟨stored, rfl, .inl rfl⟩
  | clear =>
      simp only [execute, runClear, HistoryFile.archive, Option.map_some, Archive.clear,
        Archive.ofFile]
      cases hRemoved : stored.remove with
      | ok removed =>
          obtain rfl := StoredFile.eq_absent_of_remove hRemoved
          exact ⟨.absent, rfl, .inr rfl⟩
      | error failure => exact ⟨stored, rfl, .inl rfl⟩

/-- A command leaves entries of its own recordings only. -/
theorem allEntries_execute {P : Entry → Prop} {settings : Settings} {clock : Clock}
    {command : Command} {input path : List Char} {stored : StoredFile}
    (h : stored.AllEntries P)
    (hNew : ∀ e : Entry, e.calculation ∈ recordings settings input command → P e) :
    ∃ left, ((execute Clock.look settings command input (some (path, stored))).run
        clock).1.2 = some (path, left) ∧ left.AllEntries P := by
  by_cases hCalculates : command.Calculates
  · obtain ⟨b, hLeft, new, hStamps, hGains⟩ :=
      exists_records_execute hCalculates settings clock input path stored
    have hArchive := Archive.allEntries_ofFile h settings.historyLimit
    exact ⟨b.file, hLeft, (hGains.allEntries hArchive fun e hMem => hNew e (hStamps.mem hMem)).file⟩
  · obtain ⟨left, hLeft, rfl | rfl⟩ :=
      execute_of_not_calculates hCalculates settings clock input path stored
    · exact ⟨left, hLeft, h⟩
    · exact ⟨.absent, hLeft, StoredFile.satisfies_of_loadEntries rfl (by rintro e ⟨⟩)⟩

theorem execute_none (settings : Settings) (clock : Clock) (command : Command)
    (input : List Char) : ((execute Clock.look settings command input none).run clock).1.2 = none := by
  cases command with
  | eval expression preview noHistory =>
      simp only [execute, runEval, HistoryFile.archive, Option.map_none, ite_self]
      split <;> rfl
  | repl | list | check | clear => rfl

/-- One run of the program: the directories of the user, the clock, and what the
program is given. -/
structure Use where
  env : Environment
  clock : Clock
  args : List (List Char)
  input : List Char

namespace Use

/-- The files after a run. -/
def leave (files : Files) (u : Use) : Files :=
  (run u.env u.clock u.args u.input files).2

/-- The files after runs in order, each on what the one before it left. -/
def leaveAll (files : Files) (uses : List Use) : Files :=
  uses.foldl leave files

/-- On these files the run carries a command out, under these settings and with a
place for the history. -/
structure Keeps (u : Use) (files : Files) (call : Invocation) (settings : Settings)
    (path : List Char) : Prop where
  call_eq : invocation u.args = .ok call
  settings_eq : loadSettings u.env files.look call.settingsPath = .ok settings
  path_eq : u.env.historyPath settings = some path

variable {u : Use} {files : Files} {call : Invocation} {settings : Settings} {path : List Char}

theorem Keeps.leave_eq (h : u.Keeps files call settings path) {left : StoredFile}
    (hLeft : ((execute Clock.look settings call.command u.input
      (some (path, files.look path))).run u.clock).1.2 = some (path, left)) :
    u.leave files = if left = files.look path then files else files.put path left := by
  rw [leave, run, h.call_eq]
  simp only [h.settings_eq, h.path_eq, Option.map_some]
  split
  · rename_i hExecute
    rw [hExecute] at hLeft
    obtain ⟨rfl, rfl⟩ := Prod.mk.inj (Option.some.inj hLeft)
    rfl
  · rename_i hExecute
    rw [hExecute] at hLeft
    cases hLeft

/-- The run leaves the files as they are, or carries a command out with a place
for the history. -/
theorem leave_eq_or_keeps (u : Use) (files : Files) :
    u.leave files = files ∨ ∃ call settings path, u.Keeps files call settings path := by
  cases hCall : invocation u.args with
  | error halt =>
      left
      simp only [leave, run, hCall]
  | ok call =>
      cases hSettings : loadSettings u.env files.look call.settingsPath with
      | error message =>
          left
          simp only [leave, run, hCall, hSettings]
      | ok settings =>
          cases hPath : u.env.historyPath settings with
          | some path => exact .inr ⟨call, settings, path, hCall, hSettings, hPath⟩
          | none =>
              left
              have hNone := execute_none settings u.clock call.command u.input
              simp only [leave, run, hCall, hSettings, hPath, Option.map_none]
              split
              · rename_i hExecute
                rw [hExecute] at hNone
                cases hNone
              · rfl

/-- A calculation puts an entry for each of its recordings in front of those that the
history file held. -/
theorem Keeps.exists_enters (h : u.Keeps files call settings path)
    (hCalculates : call.command.Calculates) :
    ∃ new, u.clock.Stamps (recordings settings u.input call.command) new ∧
      files.Enters (u.leave files) path settings.historyLimit new := by
  obtain ⟨b, hLeft, new, hStamps, hGains⟩ := exists_records_execute hCalculates settings u.clock
    u.input path (files.look path)
  refine ⟨new, hStamps, ?_⟩
  rw [h.leave_eq hLeft]
  exact Files.enters_of_gains hGains

/-- Any other run changes no file, or takes one away. -/
theorem contents_leave_subset
    (h : ∀ call settings path, u.Keeps files call settings path → ¬ call.command.Calculates) :
    (u.leave files).contents ⊆ files.contents := by
  rcases u.leave_eq_or_keeps files with hSame | ⟨call, settings, path, hKeeps⟩
  · rw [hSame]
    exact List.Subset.refl _
  · obtain ⟨left, hLeft, hCases⟩ := execute_of_not_calculates (h call settings path hKeeps)
      settings u.clock u.input path (files.look path)
    rw [hKeeps.leave_eq hLeft]
    split
    · exact List.Subset.refl _
    · rename_i hOther
      obtain rfl := hCases.resolve_left hOther
      simp only [Files.put]
      split
      · exact List.filter_subset_self _
      · exact List.Subset.refl _

/-- Whatever a run is asked to do, it adds only entries that reproduce. -/
theorem allEntries_leave {P : Entry → Prop} (h : files.AllEntries P)
    (hNew : ∀ e : Entry, Reproduces e.expression e.result → P e) (u : Use) :
    (u.leave files).AllEntries P := by
  rcases u.leave_eq_or_keeps files with hSame | ⟨call, settings, path, hKeeps⟩
  · rwa [hSame]
  · have hRecordings (e : Entry)
        (hMem : e.calculation ∈ recordings settings u.input call.command) : P e :=
      hNew e (reproduces_of_mem_recordings hMem).1
    obtain ⟨left, hLeft, hEntries⟩ := allEntries_execute (h.look path) hRecordings
    rw [hKeeps.leave_eq hLeft]
    split
    · exact h
    · exact h.put hEntries path

theorem allEntries_leaveAll {P : Entry → Prop} (h : files.AllEntries P)
    (hNew : ∀ e : Entry, Reproduces e.expression e.result → P e) (uses : List Use) :
    (leaveAll files uses).AllEntries P := by
  induction uses generalizing files with
  | nil => exact h
  | cons u uses ih => exact ih (allEntries_leave h hNew u)

end Use

end CommandLine

end KeypadCalculator
