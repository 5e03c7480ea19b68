import KeypadCalculator.Proofs.History.Contents
import KeypadCalculator.Proofs.History.Reopening

/-!
The ids of a history. A new id is chosen by a look at the latest entry alone. That
it is new among all others rests on their order: ids fall from the latest entry to
the oldest, in memory and in the file, whatever the clock shows and however often
the history is opened, and to keep however many entries.
-/

namespace KeypadCalculator

/-- Ids fall from the latest entry to the oldest. -/
def Entry.Descending (entries : List Entry) : Prop :=
  entries.Pairwise fun later earlier => earlier.id < later.id

instance (entries : List Entry) : Decidable (Entry.Descending entries) :=
  inferInstanceAs (Decidable (entries.Pairwise _))

theorem Entry.Descending.take {entries : List Entry} (h : Entry.Descending entries) (kept : Nat) :
    Entry.Descending (entries.take kept) :=
  List.Pairwise.sublist (List.take_sublist kept entries) h

namespace History

/-- The latest entry does not have the last of all ids. -/
def hasRoom (h : History) : Bool :=
  h.entries.head?.all fun latest => latest.id.toNat + 1 < UInt64.size

theorem toNat_succ_of_hasRoom {h : History} {latest : Entry} {earlier : List Entry}
    (hRoom : h.hasRoom = true) (hEntries : h.entries = latest :: earlier) :
    (latest.id + 1).toNat = latest.id.toNat + 1 := by
  have hSize : latest.id.toNat + 1 < UInt64.size := by simpa [hasRoom, hEntries] using hRoom
  rw [UInt64.toNat_add]
  exact Nat.mod_eq_of_lt hSize

theorem le_nextId {h : History} (hRoom : h.hasRoom = true) (timestamp : UInt64) :
    timestamp ≤ h.nextId timestamp := by
  rw [nextId]
  split
  · rename_i latest earlier hEntries
    have hSucc := toNat_succ_of_hasRoom hRoom hEntries
    split
    · rename_i hUsed
      rw [UInt64.le_iff_toNat_le] at hUsed ⊢
      omega
    · exact UInt64.le_refl timestamp
  · exact UInt64.le_refl timestamp

/-- The next id is greater than that of the latest entry, and so than all others. -/
theorem lt_nextId {h : History} (hDescending : Entry.Descending h.entries)
    (hRoom : h.hasRoom = true) (timestamp : UInt64) {old : Entry} (hMem : old ∈ h.entries) :
    old.id < h.nextId timestamp := by
  rw [nextId]
  split
  · rename_i latest earlier hEntries
    have hSucc := toNat_succ_of_hasRoom hRoom hEntries
    have hLatest : old.id.toNat ≤ latest.id.toNat := by
      rw [hEntries] at hDescending hMem
      rcases List.mem_cons.mp hMem with rfl | hEarlier
      · exact Nat.le_refl _
      · exact Nat.le_of_lt ((List.pairwise_cons.mp hDescending).1 old hEarlier)
    split
    · rw [UInt64.lt_iff_toNat_lt]
      omega
    · rename_i hFree
      rw [UInt64.le_iff_toNat_le] at hFree
      rw [UInt64.lt_iff_toNat_lt]
      omega
  · rename_i hEntries
    rw [hEntries] at hMem
    cases hMem

theorem descending_record {h : History} (hDescending : Entry.Descending h.entries)
    (hRoom : h.hasRoom = true) (expression result : List Char) (timestamp : UInt64) :
    Entry.Descending (h.record expression result timestamp).entries :=
  Entry.Descending.take
    (List.pairwise_cons.mpr ⟨fun _ hMem => lt_nextId hDescending hRoom timestamp hMem, hDescending⟩)
    h.limit

end History

namespace Archive

/-- What happens to a history in the course of time. -/
inductive Event where
  /-- It is opened from its file, to keep so many entries from then on. -/
  | opening (limit : Nat)
  | changing (c : Change)
  /-- Something else is put in the place of its file. -/
  | replacing (file : StoredFile)
  deriving DecidableEq, Repr

/-- The archive after an event. -/
def after (a : Archive) : Event → Archive
  | .opening limit => ofFile a.file limit
  | .changing c => a.change c
  | .replacing file => { a with file }

/-- The archive after events in order. -/
def afterAll (a : Archive) (events : List Event) : Archive :=
  events.foldl after a

/-- There is an id for the entry, if the event records one. -/
def allows (a : Archive) : Event → Bool
  | .changing (.record ..) => a.history.hasRoom
  | _ => true

/-- There is an id for every entry that the events record. -/
def allowsAll (a : Archive) : List Event → Bool
  | [] => true
  | event :: events => a.allows event && (a.after event).allowsAll events

/-- The limit that the history was last opened with. -/
def limitAfter (limit : Nat) : Event → Nat
  | .opening next => next
  | _ => limit

theorem Satisfies.after_descending {a : Archive} (h : a.Satisfies Entry.Descending) {event : Event}
    (hAllows : a.allows event = true)
    (hReplaced : ∀ file, event = .replacing file → file.Satisfies Entry.Descending) :
    (a.after event).Satisfies Entry.Descending := by
  cases event with
  | opening limit =>
      exact satisfies_ofFile h.file List.Pairwise.nil (fun _ kept hAll => hAll.take kept) limit
  | changing c =>
      cases c with
      | record expression result timestamp =>
          exact h.record (History.descending_record h.memory hAllows expression result timestamp)
      | clear => exact h.clear List.Pairwise.nil
  | replacing file => exact ⟨h.memory, hReplaced file rfl⟩

theorem Satisfies.afterAll_descending {a : Archive} (h : a.Satisfies Entry.Descending)
    {events : List Event} (hAllows : a.allowsAll events = true)
    (hReplaced : ∀ file, .replacing file ∈ events → file.Satisfies Entry.Descending) :
    (a.afterAll events).Satisfies Entry.Descending := by
  induction events generalizing a with
  | nil => exact h
  | cons event events ih =>
      rw [allowsAll, Bool.and_eq_true] at hAllows
      refine ih (h.after_descending hAllows.1 ?_) hAllows.2 ?_
      · rintro file rfl
        exact hReplaced file List.mem_cons_self
      · exact fun file hMem => hReplaced file (List.mem_cons_of_mem _ hMem)

/-- No more entries are kept than the limit says, and one at least. -/
structure Bounded (limit : Nat) (a : Archive) : Prop where
  limit_eq : a.history.limit = max limit 1
  length_le : a.history.entries.length ≤ a.history.limit

theorem bounded_ofFile (file : StoredFile) (limit : Nat) : Bounded limit (ofFile file limit) :=
  ⟨rfl, List.length_take_le _ _⟩

theorem Bounded.after {limit : Nat} {a : Archive} (h : Bounded limit a) (event : Event) :
    Bounded (limitAfter limit event) (a.after event) := by
  cases event with
  | opening next => exact bounded_ofFile a.file next
  | changing c =>
      refine ⟨(limit_change a c).trans h.limit_eq, ?_⟩
      cases c with
      | record expression result timestamp => exact List.length_take_le _ _
      | clear =>
          rw [Archive.after, change, entries_clear]
          exact Nat.zero_le _
  | replacing file => exact ⟨h.limit_eq, h.length_le⟩

theorem Bounded.afterAll {limit : Nat} {a : Archive} (h : Bounded limit a) (events : List Event) :
    Bounded (events.foldl limitAfter limit) (a.afterAll events) := by
  induction events generalizing limit a with
  | nil => exact h
  | cons event events ih => exact ih (h.after event)

/-- The entry that a record makes. It is given back and stands in front of the
others, and as long as there is an id for it, its id is not less than its timestamp
and greater than all others. -/
structure Recorded (a : Archive) (expression result : List Char) (timestamp : UInt64)
    (entry : Entry) : Prop where
  reply_eq : a.reply (.record expression result timestamp) = some entry
  entries_eq : (a.change (.record expression result timestamp)).history.entries =
    (entry :: a.history.entries).take a.history.limit
  expression_eq : entry.expression = expression
  result_eq : entry.result = result
  timestamp_eq : entry.timestamp = timestamp
  timestamp_le : a.history.hasRoom = true → timestamp ≤ entry.id
  id_lt : a.history.hasRoom = true → ∀ old ∈ a.history.entries, old.id < entry.id

/-- There is always an entry to give back, as one entry at least is kept. -/
theorem exists_recorded {a : Archive} (h : Entry.Descending a.history.entries)
    (expression result : List Char) (timestamp : UInt64) :
    ∃ entry, a.Recorded expression result timestamp entry := by
  have hKept : a.history.limit ≠ 0 := Nat.ne_of_gt a.history.limit_pos
  refine ⟨{ id := a.history.nextId timestamp, expression, result, timestamp },
    ?_, rfl, rfl, rfl, rfl, ?_, ?_⟩
  · simp [reply, record, History.record, List.head?_take, hKept]
  · exact fun hRoom => History.le_nextId hRoom timestamp
  · exact fun hRoom _ hMem => History.lt_nextId h hRoom timestamp hMem

/-- Begun with falling ids, a history has falling ids at all times, and no more
entries than the limit says; and every record gives back the entry that it makes. -/
theorem descending_afterAll {file : StoredFile} {limit : Nat} {events : List Event}
    (hFile : file.Satisfies Entry.Descending)
    (hReplaced : ∀ found, .replacing found ∈ events → found.Satisfies Entry.Descending)
    (hAllows : (ofFile file limit).allowsAll events = true) :
    let a := (ofFile file limit).afterAll events
    Entry.Descending a.history.entries ∧
      a.history.entries.length ≤ max (events.foldl limitAfter limit) 1 ∧
      ∀ expression result timestamp, ∃ entry, a.Recorded expression result timestamp entry := by
  intro a
  have hStart : (ofFile file limit).Satisfies Entry.Descending :=
    satisfies_ofFile hFile List.Pairwise.nil (fun _ kept hAll => hAll.take kept) limit
  have hDescending : Entry.Descending a.history.entries :=
    (hStart.afterAll_descending hAllows hReplaced).memory
  have hBounded := (bounded_ofFile file limit).afterAll events
  exact ⟨hDescending, hBounded.limit_eq ▸ hBounded.length_le, exists_recorded hDescending⟩

/-- Two entries of a file, of which only the latest is kept at first; a clock that
goes back behind them and stands still; and a file that is out of reach for a
while. -/
theorem descending_afterAll_backwards :
    let file := StoredFile.text (Entry.documentOf
      [⟨9, ['1', '+', '2'], ['3'], 9⟩, ⟨4, ['6', '×', '7'], ['4', '2'], 4⟩])
    let events : List Event := [.changing (.record ['5', '-', '1'] ['4'] 2), .opening 3,
      .changing (.record ['8'] ['8'] 2), .changing (.record ['8'] ['8'] 2),
      .replacing .unreachable, .changing .clear, .changing (.record ['7'] ['7'] 1),
      .replacing .absent, .changing (.record ['7'] ['7'] 1), .opening 1]
    let a := (ofFile file 0).afterAll events
    file.Satisfies Entry.Descending ∧
      (∀ found, .replacing found ∈ events → found.Satisfies Entry.Descending) ∧
      (ofFile file 0).allowsAll events = true ∧
      (Entry.Descending a.history.entries ∧
        a.history.entries.length ≤ max (events.foldl limitAfter 0) 1 ∧
        ∀ expression result timestamp,
          ∃ entry, a.Recorded expression result timestamp entry) := by
  intro file events a
  have hFile : file.Satisfies Entry.Descending := StoredFile.satisfies_documentOf (by decide)
  have hReplaced : ∀ found, .replacing found ∈ events → found.Satisfies Entry.Descending := by
    intro found hMem
    have hFound : found = .unreachable ∨ found = .absent := by simpa [events] using hMem
    rcases hFound with rfl | rfl <;>
      exact StoredFile.satisfies_of_loadEntries rfl List.Pairwise.nil
  have hAllows : (ofFile file 0).allowsAll events = true := by decide +kernel
  exact ⟨hFile, hReplaced, hAllows, descending_afterAll hFile hReplaced hAllows⟩

end Archive

end KeypadCalculator
