import KeypadCalculator.History.Store
import KeypadCalculator.Proofs.Json.RoundTrip

/-!
The document of a list of entries holds that list: what is saved can be loaded
again, whatever characters the texts are made of.
-/

namespace KeypadCalculator

open Json Text

namespace Json

theorem toUInt64?_toDigits (n : UInt64) :
    (Json.number (Nat.toDigits 10 n.toNat)).toUInt64? = some n := by
  have hSize : digitsValue (Nat.toDigits 10 n.toNat) < UInt64.size := by
    rw [digitsValue_toDigits]
    exact n.toNat_lt
  rw [toUInt64?, all_isAsciiDigit_toDigits, decide_eq_true hSize, Bool.and_self, if_pos rfl,
    digitsValue_toDigits, UInt64.ofNat_toNat]

end Json

namespace Entry

/-- The members of the object that an entry is stored as. -/
def members (e : Entry) : List (Option (List Char) × Json) :=
  [(some idKey, .number (Nat.toDigits 10 e.id.toNat)),
    (some expressionKey, .string (some e.expression)),
    (some resultKey, .string (some e.result)),
    (some timestampKey, .number (Nat.toDigits 10 e.timestamp.toNat))]

theorem writes_text (e : Entry) : Writes e.text (.object e.members) := by
  refine writes_object (.cons ?_ (.cons ?_ (.cons ?_ (.cons ?_ .nil)))) 1
  · exact ⟨idKey, _, rfl, rfl, writes_number e.id.toNat⟩
  · exact ⟨expressionKey, _, rfl, rfl, writes_string e.expression⟩
  · exact ⟨resultKey, _, rfl, rfl, writes_string e.result⟩
  · exact ⟨timestampKey, _, rfl, rfl, writes_number e.timestamp.toNat⟩

/-- Each of the four keys is found among the others. -/
theorem only?_keys (id expression result timestamp : Json) :
    let members := [(idKey, id), (expressionKey, expression), (resultKey, result),
      (timestampKey, timestamp)]
    only? idKey members = some id ∧ only? expressionKey members = some expression ∧
      only? resultKey members = some result ∧ only? timestampKey members = some timestamp :=
  ⟨rfl, rfl, rfl, rfl⟩

theorem ofJson?_members (e : Entry) : ofJson? (.object e.members) = some e := by
  obtain ⟨hId, hExpression, hResult, hTimestamp⟩ := only?_keys
    (.number (Nat.toDigits 10 e.id.toNat)) (.string (some e.expression))
    (.string (some e.result)) (.number (Nat.toDigits 10 e.timestamp.toNat))
  simp [ofJson?, members, hId, hExpression, hResult, hTimestamp, toUInt64?_toDigits, toChars?]

theorem mapM_ofJson?_members (entries : List Entry) :
    (entries.map fun e => .object e.members).mapM ofJson? = some entries := by
  induction entries with
  | nil => rfl
  | cons e entries ih =>
      rw [List.map_cons, List.mapM_cons, ofJson?_members, ih]
      rfl

/-- The document of a list of entries is an array with one object for each. -/
theorem ofText?_documentOf (entries : List Entry) :
    Json.ofText? (documentOf entries) =
      some (.array (entries.map fun e => .object e.members)) := by
  have hLines : List.Forall₂ Writes (entries.map text)
      (entries.map fun e => .object e.members) := by
    rw [List.forall₂_map_left_iff, List.forall₂_map_right_iff, List.forall₂_same]
    exact fun e _ => e.writes_text
  exact (writes_array hLines 0).ofText?

/-- The document of a list of entries is read as that list. -/
theorem ofDocument?_documentOf (entries : List Entry) :
    ofDocument? (documentOf entries) = some entries := by
  rw [ofDocument?, ofText?_documentOf]
  exact mapM_ofJson?_members entries

end Entry

namespace StoredFile

theorem loadEntries_documentOf (entries : List Entry) :
    (StoredFile.text (Entry.documentOf entries)).loadEntries = .ok entries := by
  rw [loadEntries, Entry.ofDocument?_documentOf]

theorem eq_text_of_saveEntries {entries : List Entry} {file saved : StoredFile}
    (h : file.saveEntries entries = .ok saved) : saved = .text (Entry.documentOf entries) := by
  cases file <;> cases h <;> rfl

theorem eq_absent_of_remove {file removed : StoredFile} (h : file.remove = .ok removed) :
    removed = .absent := by
  cases file <;> cases h <;> rfl

/-- Wherever a file can be made, saving makes one that loads as what was saved. It
holds an array with one object for each entry, in their order, and the id, the
expression, the result and the timestamp as the members of each. -/
theorem loadEntries_saveEntries (file : StoredFile) (entries : List Entry) :
    (∃ contents, file.saveEntries entries = .ok (.text contents) ∧
        (StoredFile.text contents).loadEntries = .ok entries ∧
        Json.ofText? contents = some (.array (entries.map fun e => .object e.members))) ∨
      ((file = .directory ∨ file = .unreachable) ∧
        ∃ failure, file.saveEntries entries = .error failure) := by
  cases file with
  | absent | text | undecodable =>
      exact .inl ⟨Entry.documentOf entries, rfl, loadEntries_documentOf entries,
        Entry.ofText?_documentOf entries⟩
  | directory => exact .inr ⟨.inl rfl, _, rfl⟩
  | unreachable => exact .inr ⟨.inr rfl, _, rfl⟩

end StoredFile

end KeypadCalculator
