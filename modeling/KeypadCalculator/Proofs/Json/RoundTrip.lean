import KeypadCalculator.Json.Reading
import KeypadCalculator.Json.Writing
import KeypadCalculator.Proofs.Text.Digits
import KeypadCalculator.Proofs.Token.Characters
import Mathlib.Data.List.DropRight
import Mathlib.Data.List.Forall2

/-!
What the writer writes, the reader reads: strings of any characters, decimal
numbers, and arrays and objects of such, one value a line.
-/

namespace KeypadCalculator.Json

open Text

/-! ### Strings -/

/-- The part of a string that a written character is read as. A control
character is written by its number, unless an escape has a letter for it. -/
def writtenPart (c : Char) : Part :=
  if c.toNat < 0x20 ∧ c ∉ ['\x08', '\x0c', '\n', '\r', '\t'] then .unit c.toNat else .character c

/-- A read string with a part in front of it. -/
def prepend (p : Part) : List Part × List Char → List Part × List Char :=
  fun (ps, rest) => (p :: ps, rest)

theorem parts?_letter {e c : Char} (hEscape : escaped? e = some c) (hLetter : e ≠ 'u')
    (rest : List Char) :
    parts? ('\\' :: e :: rest) = (parts? rest).map (prepend (.character c)) := by
  rw [parts?, hEscape]
  · cases parts? rest <;> rfl
  · exact fun _ _ _ _ _ hU _ => hLetter hU

theorem parts?_plain {c : Char} (hQuote : c ≠ '"') (hBackslash : c ≠ '\\')
    (hControl : ¬ c.toNat < 0x20) (rest : List Char) :
    parts? (c :: rest) = (parts? rest).map (prepend (.character c)) := by
  rw [parts?, if_neg hControl]
  · cases parts? rest <;> rfl
  · exact hQuote
  · exact fun _ _ _ _ _ hEscape _ => hBackslash hEscape
  · exact fun _ _ hEscape _ => hBackslash hEscape

theorem hexNumber?_hexDigit {n : Nat} (h : n < 0x20) :
    hexNumber? ['0', '0', hexDigit (n / 16), hexDigit (n % 16)] = some n := by
  have hAll : ∀ n < 0x20, hexNumber? ['0', '0', hexDigit (n / 16), hexDigit (n % 16)] = some n := by
    decide
  exact hAll n h

theorem parts?_number {n : Nat} (h : n < 0x20) (rest : List Char) :
    parts? ('\\' :: 'u' :: '0' :: '0' :: hexDigit (n / 16) :: hexDigit (n % 16) :: rest) =
      (parts? rest).map (prepend (.unit n)) := by
  rw [parts?, hexNumber?_hexDigit h]
  cases parts? rest <;> rfl

/-- Each written character is read as one part. -/
theorem parts?_escape (c : Char) (rest : List Char) :
    parts? (escape c ++ rest) = (parts? rest).map (prepend (writtenPart c)) := by
  by_cases hLetter : c ∈ ['"', '\\', '\x08', '\x0c', '\n', '\r', '\t']
  · simp only [List.mem_cons, List.not_mem_nil, or_false] at hLetter
    rcases hLetter with rfl | rfl | rfl | rfl | rfl | rfl | rfl <;>
      exact parts?_letter rfl (by decide) rest
  · simp only [List.mem_cons, List.not_mem_nil, or_false, not_or] at hLetter
    obtain ⟨hQuote, hBackslash, hLetter⟩ := hLetter
    by_cases hControl : c.toNat < 0x20
    · have hEscape : escape c =
          ['\\', 'u', '0', '0', hexDigit (c.toNat / 16), hexDigit (c.toNat % 16)] := by
        simp [escape, hQuote, hBackslash, hLetter, hControl]
      have hPart : writtenPart c = .unit c.toNat := by simp [writtenPart, hLetter, hControl]
      rw [hEscape, hPart]
      exact parts?_number hControl rest
    · have hEscape : escape c = [c] := by
        simp [escape, hQuote, hBackslash, hLetter, hControl]
      have hPart : writtenPart c = .character c := by simp [writtenPart, hControl]
      rw [hEscape, hPart]
      exact parts?_plain hQuote hBackslash hControl rest

theorem parts?_flatMap_escape (content rest : List Char) :
    parts? (content.flatMap escape ++ '"' :: rest) = some (content.map writtenPart, rest) := by
  induction content with
  | nil => rw [List.flatMap_nil, List.nil_append, parts?, List.map_nil]
  | cons c content ih =>
      rw [List.flatMap_cons, List.append_assoc, parts?_escape, ih]
      rfl

/-- A number below those of the surrogate pairs is that of a character, whatever
comes after it. -/
theorem content?_unit {n : Nat} (h : n < 0xD800) (ps : List Part) :
    content? (.unit n :: ps) = (content? ps).map (Char.ofNat n :: ·) := by
  have hHigh : ¬ 0xD800 ≤ n := by omega
  have hLow : ¬ 0xDC00 ≤ n := by omega
  cases ps with
  | nil => simp [content?, hHigh]
  | cons p ps =>
      cases p with
      | character c => simp [content?, hHigh]
      | unit low => simp [content?, hHigh, hLow]

theorem content?_writtenPart (c : Char) (ps : List Part) :
    content? (writtenPart c :: ps) = (content? ps).map (c :: ·) := by
  rw [writtenPart]
  split
  · rename_i hControl
    rw [content?_unit (by omega), Char.ofNat_toNat]
  · rw [content?]

theorem content?_map_writtenPart (content : List Char) :
    content? (content.map writtenPart) = some content := by
  induction content with
  | nil => rfl
  | cons c content ih =>
      rw [List.map_cons, content?_writtenPart, ih]
      rfl

/-- A quoted string is read as what was quoted, up to the closing quote. -/
theorem string?_quoted (content rest : List Char) :
    string? (content.flatMap escape ++ '"' :: rest) = some (some content, rest) := by
  simp only [string?, parts?_flatMap_escape, Option.map_some, content?_map_writtenPart]

/-! ### Blanks -/

theorem skipSpace_append {space : List Char} (h : ∀ c ∈ space, isSpace c = true)
    (rest : List Char) : skipSpace (space ++ rest) = skipSpace rest :=
  List.dropWhile_append_of_pos h

theorem skipSpace_cons {c : Char} (h : isSpace c = false) (rest : List Char) :
    skipSpace (c :: rest) = c :: rest :=
  List.dropWhile_cons_of_neg (by simp [h])

theorem skipSpace_skipSpace (text : List Char) : skipSpace (skipSpace text) = skipSpace text :=
  List.dropWhile_idempotent _ text

/-- The blanks in front of a written line. -/
def lineStart (depth : Nat) : List Char :=
  '\n' :: indent depth

theorem isSpace_of_mem_lineStart {depth : Nat} : ∀ c ∈ lineStart depth, isSpace c = true := by
  intro c hMem
  rcases List.mem_cons.mp hMem with rfl | hIndent
  · rfl
  · rw [List.eq_of_mem_replicate hIndent]
    rfl

theorem value?_skipSpace (fuel : Nat) (text : List Char) :
    value? fuel (skipSpace text) = value? fuel text := by
  cases fuel with
  | zero => rfl
  | succ fuel => rw [value?, value?, skipSpace_skipSpace]

theorem items?_skipSpace (fuel : Nat) (text : List Char) :
    items? fuel (skipSpace text) = items? fuel text := by
  cases fuel with
  | zero => rfl
  | succ fuel => rw [items?, items?, value?_skipSpace]

theorem members?_skipSpace (fuel : Nat) (text : List Char) :
    members? fuel (skipSpace text) = members? fuel text := by
  cases fuel with
  | zero => rfl
  | succ fuel => rw [members?, members?, skipSpace_skipSpace]

/-! ### Values -/

/-- What comes after a value that is written as a line of its own, or as a whole
document. -/
def Follows (rest : List Char) : Prop :=
  ∀ c ∈ rest.head?, c = ',' ∨ c = '\n'

/-- The text is read as the value, whatever comes after it. Fuel of twice its length
is enough: a bracket costs two, since the value and its items both take some, and a
comma or a colon pays for itself. -/
def Writes (text : List Char) (value : Json) : Prop :=
  ∀ fuel rest, 2 * text.length ≤ fuel → Follows rest →
    value? fuel (text ++ rest) = some (value, rest)

theorem follows_comma (rest : List Char) : Follows (',' :: rest) := by
  rintro c ⟨⟩
  exact .inl rfl

theorem follows_lineStart (depth : Nat) (rest : List Char) : Follows (lineStart depth ++ rest) := by
  rintro c ⟨⟩
  exact .inr rfl

theorem value?_string (content rest : List Char) (fuel : Nat) :
    value? (fuel + 1) (quoted content ++ rest) = some (.string (some content), rest) := by
  have hText : quoted content ++ rest = '"' :: (content.flatMap escape ++ '"' :: rest) := by
    simp [quoted]
  rw [hText, value?, skipSpace_cons rfl]
  simp only [string?_quoted, Option.map_some]

theorem writes_string (content : List Char) : Writes (quoted content) (.string (some content)) := by
  intro fuel rest hFuel _
  have hSome : 0 < (quoted content).length := Nat.succ_pos _
  obtain ⟨fuel, rfl⟩ := Nat.exists_eq_add_one_of_ne_zero (show fuel ≠ 0 by omega)
  exact value?_string content rest fuel

theorem value?_digit {c : Char} (h : isAsciiDigit c = true) (fuel : Nat) (text : List Char) :
    value? (fuel + 1) (c :: text) =
      (number? (c :: text)).map fun (text, rest) => (.number text, rest) := by
  have hBlank : isSpace c = false := by
    rw [Bool.eq_false_iff]
    intro hSpace
    simp only [isSpace, Bool.or_eq_true, beq_iff_eq] at hSpace
    rcases hSpace with ((rfl | rfl) | rfl) | rfl <;> cases h
  rw [value?, skipSpace_cons hBlank]
  split
  case h_7 => rfl
  all_goals
    rename_i hEq
    exact absurd (List.cons.inj hEq).1 (ne_of_isAsciiDigit h (by decide))

/-- Nothing behind a number is taken for a part of it. -/
theorem unsigned?_of_wholePart {text digits rest : List Char} (hRest : Follows rest)
    (h : wholePart? text = some (digits, rest)) : unsigned? text = some (digits, rest) := by
  rw [unsigned?, h]
  cases rest with
  | nil => simp [fractionPart?, powerPart?]
  | cons c rest =>
      rcases hRest c rfl with rfl | rfl <;> simp [fractionPart?, powerPart?]

theorem digits?_toDigits (n : Nat) {rest : List Char} (hRest : Follows rest) :
    digits? (Nat.toDigits 10 n ++ rest) = some (Nat.toDigits 10 n, rest) := by
  have hDigits : ∀ c ∈ Nat.toDigits 10 n, isAsciiDigit c = true :=
    List.all_eq_true.mp (all_isAsciiDigit_toDigits n)
  have hStops : rest.takeWhile isAsciiDigit = [] ∧ rest.dropWhile isAsciiDigit = rest := by
    cases rest with
    | nil => exact ⟨rfl, rfl⟩
    | cons c rest => rcases hRest c rfl with rfl | rfl <;> exact ⟨rfl, rfl⟩
  rw [digits?, List.takeWhile_append_of_pos hDigits, List.dropWhile_append_of_pos hDigits,
    hStops.1, hStops.2, List.append_nil]
  split
  · rename_i hNil
    exact absurd hNil Nat.toDigits_ne_nil
  · rfl

theorem wholePart?_toDigits (n : Nat) {rest : List Char} (hRest : Follows rest) :
    wholePart? (Nat.toDigits 10 n ++ rest) = some (Nat.toDigits 10 n, rest) := by
  rcases Nat.eq_zero_or_pos n with rfl | hPos
  · rw [Nat.toDigits_zero]
    rfl
  · obtain ⟨c, digits, hDigits, hZero⟩ := exists_toDigits_eq_cons hPos
    rw [wholePart?, digits?_toDigits n hRest]
    intro tail hEq
    rw [hDigits] at hEq
    exact hZero (List.cons.inj hEq).1

theorem writes_number (n : Nat) : Writes (Nat.toDigits 10 n) (.number (Nat.toDigits 10 n)) := by
  intro fuel rest hFuel hRest
  obtain ⟨c, digits, hDigits⟩ :=
    List.exists_cons_of_ne_nil (Nat.toDigits_ne_nil (n := n) (b := 10))
  have hDigit : isAsciiDigit c = true := by
    have hAll := all_isAsciiDigit_toDigits n
    rw [hDigits, List.all_cons, Bool.and_eq_true] at hAll
    exact hAll.1
  have hUnsigned := unsigned?_of_wholePart hRest (wholePart?_toDigits n hRest)
  rw [hDigits] at hFuel hUnsigned ⊢
  rw [List.length_cons] at hFuel
  obtain ⟨fuel, rfl⟩ := Nat.exists_eq_add_one_of_ne_zero (show fuel ≠ 0 by omega)
  rw [List.cons_append] at hUnsigned ⊢
  rw [value?_digit hDigit, number?, hUnsigned]
  · rfl
  · exact fun _ hEq => ne_of_isAsciiDigit hDigit (by decide) (List.cons.inj hEq).1

/-! ### Blocks -/

theorem skipSpace_lineStart (depth : Nat) (rest : List Char) :
    skipSpace (lineStart depth ++ rest) = skipSpace rest :=
  skipSpace_append isSpace_of_mem_lineStart rest

/-- A value is read behind the blanks of its line. -/
theorem Writes.value?_line {text : List Char} {value : Json} (h : Writes text value)
    (depth : Nat) {fuel : Nat} {rest : List Char} (hFuel : 2 * text.length ≤ fuel)
    (hRest : Follows rest) :
    value? fuel (lineStart depth ++ (text ++ rest)) = some (value, rest) := by
  rw [← value?_skipSpace, skipSpace_lineStart, value?_skipSpace]
  exact h fuel rest hFuel hRest

/-- The lines of a block, with commas between them. -/
def joined (depth : Nat) (lines : List (List Char)) : List Char :=
  [','].intercalate (lines.map (lineStart depth ++ ·))

theorem joined_cons_cons (depth : Nat) (line next : List Char) (lines : List (List Char)) :
    joined depth (line :: next :: lines) =
      lineStart depth ++ (line ++ ',' :: joined depth (next :: lines)) := by
  simp [joined]

theorem joined_singleton (depth : Nat) (line : List Char) :
    joined depth [line] = lineStart depth ++ line := by
  simp [joined]

theorem length_block_nil (opening closing : Char) (depth : Nat) :
    (block opening closing depth []).length = 2 :=
  rfl

theorem block_append (opening closing : Char) (depth : Nat) {lines : List (List Char)}
    (h : lines ≠ []) (rest : List Char) :
    block opening closing depth lines ++ rest =
      opening :: (joined (depth + 1) lines ++ (lineStart depth ++ closing :: rest)) := by
  simp [block, h, joined, lineStart]

theorem items?_last {line : List Char} {value : Json} (h : Writes line value) (depth : Nat)
    {fuel : Nat} (rest : List Char) (hFuel : 2 * line.length ≤ fuel) :
    items? (fuel + 1) (lineStart (depth + 1) ++ (line ++ (lineStart depth ++ ']' :: rest))) =
      some ([value], rest) := by
  have hRest := follows_lineStart depth (']' :: rest)
  simp [items?, h.value?_line (depth + 1) hFuel hRest, skipSpace_lineStart,
    skipSpace_cons (c := ']') rfl]

theorem items?_more {line more rest : List Char} {value : Json} {values : List Json}
    (h : Writes line value) (depth : Nat) {fuel : Nat} (hFuel : 2 * line.length ≤ fuel)
    (hMore : items? fuel more = some (values, rest)) :
    items? (fuel + 1) (lineStart depth ++ (line ++ ',' :: more)) =
      some (value :: values, rest) := by
  have hRest := follows_comma more
  simp [items?, h.value?_line depth hFuel hRest, skipSpace_cons (c := ',') rfl, hMore]

/-- Lines of values are read as the items of an array. -/
theorem items?_joined {lines : List (List Char)} {values : List Json}
    (h : List.Forall₂ Writes lines values) (hSome : lines ≠ []) (depth : Nat) {fuel : Nat}
    (rest : List Char) (hFuel : 2 * (joined (depth + 1) lines).length < fuel) :
    items? fuel (joined (depth + 1) lines ++ (lineStart depth ++ ']' :: rest)) =
      some (values, rest) := by
  induction h generalizing fuel with
  | nil => exact absurd rfl hSome
  | @cons line value lines values hLine hLines ih =>
      obtain ⟨fuel, rfl⟩ := Nat.exists_eq_add_one_of_ne_zero (show fuel ≠ 0 by omega)
      cases lines with
      | nil =>
          obtain rfl := List.forall₂_nil_left_iff.mp hLines
          rw [joined_singleton, List.length_append] at hFuel
          rw [joined_singleton, List.append_assoc]
          exact items?_last hLine depth rest (by omega)
      | cons next lines =>
          rw [joined_cons_cons] at hFuel ⊢
          simp only [List.length_append, List.length_cons] at hFuel
          have hRest : 2 * (joined (depth + 1) (next :: lines)).length < fuel := by omega
          have hMore := ih (List.cons_ne_nil next lines) hRest
          rw [List.append_assoc, List.append_assoc, List.cons_append]
          exact items?_more hLine (depth + 1) (by omega) hMore

/-- The line writes the member, whose value is read as such. -/
def WritesMember (line : List Char) (m : Option (List Char) × Json) : Prop :=
  ∃ key text, line = member key text ∧ m.1 = some key ∧ Writes text m.2

/-- A member as the reader takes it apart. -/
theorem skipSpace_member (key text rest : List Char) :
    skipSpace (member key text ++ rest) =
      '"' :: (key.flatMap escape ++ '"' :: ':' :: ' ' :: (text ++ rest)) := by
  have hMember : member key text ++ rest =
      '"' :: (key.flatMap escape ++ '"' :: ':' :: ' ' :: (text ++ rest)) := by
    simp [member, quoted]
  rw [hMember, skipSpace_cons rfl]

theorem Writes.value?_space {text rest : List Char} {value : Json} (h : Writes text value)
    {fuel : Nat} (hFuel : 2 * text.length ≤ fuel) (hRest : Follows rest) :
    value? fuel (' ' :: (text ++ rest)) = some (value, rest) := by
  rw [← value?_skipSpace, skipSpace, List.dropWhile_cons_of_pos rfl]
  exact (value?_skipSpace fuel _).trans (h fuel rest hFuel hRest)

theorem members?_last {key text : List Char} {value : Json} (h : Writes text value) (depth : Nat)
    {fuel : Nat} (rest : List Char) (hFuel : 2 * text.length ≤ fuel) :
    members? (fuel + 1)
        (lineStart (depth + 1) ++ (member key text ++ (lineStart depth ++ '}' :: rest))) =
      some ([(some key, value)], rest) := by
  have hRest := follows_lineStart depth ('}' :: rest)
  simp [members?, skipSpace_lineStart, skipSpace_member, string?_quoted,
    skipSpace_cons (c := ':') rfl, h.value?_space hFuel hRest, skipSpace_cons (c := '}') rfl]

theorem members?_more {key text more rest : List Char} {value : Json}
    {members : List (Option (List Char) × Json)} (h : Writes text value) (depth : Nat)
    {fuel : Nat} (hFuel : 2 * text.length ≤ fuel)
    (hMore : members? fuel more = some (members, rest)) :
    members? (fuel + 1) (lineStart depth ++ (member key text ++ ',' :: more)) =
      some ((some key, value) :: members, rest) := by
  have hRest := follows_comma more
  simp [members?, skipSpace_lineStart, skipSpace_member, string?_quoted,
    skipSpace_cons (c := ':') rfl, h.value?_space hFuel hRest, skipSpace_cons (c := ',') rfl, hMore]

/-- Lines of members are read as the members of an object. -/
theorem members?_joined {lines : List (List Char)} {members : List (Option (List Char) × Json)}
    (h : List.Forall₂ WritesMember lines members) (hSome : lines ≠ []) (depth : Nat) {fuel : Nat}
    (rest : List Char) (hFuel : 2 * (joined (depth + 1) lines).length < fuel) :
    members? fuel (joined (depth + 1) lines ++ (lineStart depth ++ '}' :: rest)) =
      some (members, rest) := by
  induction h generalizing fuel with
  | nil => exact absurd rfl hSome
  | @cons line m lines members hLine hLines ih =>
      obtain ⟨fuel, rfl⟩ := Nat.exists_eq_add_one_of_ne_zero (show fuel ≠ 0 by omega)
      obtain ⟨key, text, rfl, hKey, hText⟩ := hLine
      obtain ⟨_, value⟩ := m
      obtain rfl := hKey
      have hLength : text.length ≤ (member key text).length := by simp [member]; omega
      cases lines with
      | nil =>
          obtain rfl := List.forall₂_nil_left_iff.mp hLines
          rw [joined_singleton, List.length_append] at hFuel
          rw [joined_singleton, List.append_assoc]
          exact members?_last hText depth rest (by omega)
      | cons next lines =>
          rw [joined_cons_cons] at hFuel ⊢
          simp only [List.length_append, List.length_cons] at hFuel
          have hRest : 2 * (joined (depth + 1) (next :: lines)).length < fuel := by omega
          have hMore := ih (List.cons_ne_nil next lines) hRest
          rw [List.append_assoc, List.append_assoc, List.cons_append]
          exact members?_more hText (depth + 1) (by omega) hMore

/-- No item and no member begins with a closing bracket. -/
theorem items?_closing (fuel : Nat) (rest : List Char) : items? fuel (']' :: rest) = none := by
  rcases fuel with _ | _ | fuel <;> rfl

theorem members?_closing (fuel : Nat) (rest : List Char) : members? fuel ('}' :: rest) = none := by
  cases fuel <;> rfl

theorem value?_array {fuel : Nat} {text rest : List Char} {items : List Json}
    (h : items? fuel text = some (items, rest)) :
    value? (fuel + 1) ('[' :: text) = some (.array items, rest) := by
  rw [← items?_skipSpace] at h
  simp only [value?, skipSpace_cons (c := '[') rfl]
  split
  · rename_i hClosing
    rw [hClosing, items?_closing] at h
    cases h
  · rw [h]
    rfl

theorem value?_object {fuel : Nat} {text rest : List Char}
    {members : List (Option (List Char) × Json)} (h : members? fuel text = some (members, rest)) :
    value? (fuel + 1) ('{' :: text) = some (.object members, rest) := by
  rw [← members?_skipSpace] at h
  simp only [value?, skipSpace_cons (c := '{') rfl]
  split
  · rename_i hClosing
    rw [hClosing, members?_closing] at h
    cases h
  · rw [h]
    rfl

theorem length_block (opening closing : Char) (depth : Nat) {lines : List (List Char)}
    (h : lines ≠ []) :
    (joined (depth + 1) lines).length + 2 ≤ (block opening closing depth lines).length := by
  have hBlock := congrArg List.length (block_append opening closing depth h [])
  simp only [List.append_nil, List.length_cons, List.length_append] at hBlock
  omega

/-- An array of written values. -/
theorem writes_array {lines : List (List Char)} {values : List Json}
    (h : List.Forall₂ Writes lines values) (depth : Nat) :
    Writes (block '[' ']' depth lines) (.array values) := by
  intro fuel rest hFuel _
  by_cases hSome : lines = []
  · subst lines
    obtain rfl := List.forall₂_nil_left_iff.mp h
    rw [length_block_nil] at hFuel
    obtain ⟨fuel, rfl⟩ := Nat.exists_eq_add_one_of_ne_zero (show fuel ≠ 0 by omega)
    rfl
  · have hLength := length_block '[' ']' depth hSome
    obtain ⟨fuel, rfl⟩ := Nat.exists_eq_add_one_of_ne_zero (show fuel ≠ 0 by omega)
    rw [block_append _ _ _ hSome]
    exact value?_array (items?_joined h hSome depth rest (by omega))

/-- An object with written values. -/
theorem writes_object {lines : List (List Char)} {members : List (Option (List Char) × Json)}
    (h : List.Forall₂ WritesMember lines members) (depth : Nat) :
    Writes (block '{' '}' depth lines) (.object members) := by
  intro fuel rest hFuel _
  by_cases hSome : lines = []
  · subst lines
    obtain rfl := List.forall₂_nil_left_iff.mp h
    rw [length_block_nil] at hFuel
    obtain ⟨fuel, rfl⟩ := Nat.exists_eq_add_one_of_ne_zero (show fuel ≠ 0 by omega)
    rfl
  · have hLength := length_block '{' '}' depth hSome
    obtain ⟨fuel, rfl⟩ := Nat.exists_eq_add_one_of_ne_zero (show fuel ≠ 0 by omega)
    rw [block_append _ _ _ hSome]
    exact value?_object (members?_joined h hSome depth rest (by omega))

/-- A written value alone is a document of that value. -/
theorem Writes.ofText? {text : List Char} {value : Json} (h : Writes text value) :
    Json.ofText? text = some value := by
  have hRead := h (2 * text.length + 2) [] (by omega) (by rintro c ⟨⟩)
  rw [List.append_nil] at hRead
  rw [Json.ofText?, hRead]
  rfl

end KeypadCalculator.Json
