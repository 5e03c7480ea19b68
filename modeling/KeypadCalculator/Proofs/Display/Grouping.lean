import KeypadCalculator.Display
import KeypadCalculator.Proofs.Token.Characters
import Mathlib.Data.List.Basic

/-!
Digits in groups of three. The whole part of a number is cut from its end into groups with
a comma between them, of which only the first may be shorter. Nothing else of the text is
changed, so that it comes back when the commas are left out.
-/

namespace KeypadCalculator

open Binary64 Text

theorem groupThousands_of_length_le {digits : List Char} (h : digits.length ≤ 3) :
    groupThousands digits = digits := by
  match digits with
  | [] | [_] | [_, _] | [_, _, _] => rfl
  | a :: b :: c :: d :: rest =>
      simp only [List.length_cons] at h
      omega

/-- The last three digits are a group if there are more in front of them. -/
theorem groupThousands_append {front : List Char} (h : front ≠ []) (a b c : Char) :
    groupThousands (front ++ [a, b, c]) = groupThousands front ++ ',' :: [a, b, c] := by
  obtain ⟨d, rest, hFront⟩ := List.exists_cons_of_ne_nil (List.reverse_ne_nil_iff.2 h)
  simp only [groupThousands, List.reverse_append, hFront]
  simp [commasReversed]

theorem intercalate_append_singleton {α : Type} (separator last : List α) {groups : List (List α)}
    (h : groups ≠ []) :
    separator.intercalate (groups ++ [last]) =
      separator.intercalate groups ++ (separator ++ last) := by
  induction groups with
  | nil => exact absurd rfl h
  | cons first groups ih =>
      cases groups with
      | nil => simp
      | cons second groups =>
          have hRest := ih (List.cons_ne_nil second groups)
          rw [List.cons_append, List.cons_append, List.intercalate_cons_cons, ← List.cons_append,
            hRest, List.intercalate_cons_cons]
          simp only [List.append_assoc]

/-- Digits in groups of three, the first of which may be shorter. It is empty only where
there are no digits. -/
structure IsGrouping (digits first : List Char) (others : List (List Char)) : Prop where
  digits_eq : digits = first ++ others.flatten
  first_ne_nil : digits ≠ [] → first ≠ []
  length_first : first.length ≤ 3
  length_others : ∀ group ∈ others, group.length = 3

theorem exists_grouping (digits : List Char) :
    ∃ first others, IsGrouping digits first others ∧
      groupThousands digits = [','].intercalate (first :: others) := by
  -- By the number of digits, as the groups are taken from the end.
  induction hLength : digits.length using Nat.strongRecOn generalizing digits with
  | ind n ih =>
      rcases Nat.lt_or_ge 3 digits.length with hMore | hFew
      · obtain ⟨front, last, rfl, hLast⟩ : ∃ front last, digits = front ++ last ∧ last.length = 3 :=
          ⟨digits.take (digits.length - 3), digits.drop (digits.length - 3),
            (List.take_append_drop ..).symm, by rw [List.length_drop]; omega⟩
        rw [List.length_append] at hMore hLength
        have hFront : front ≠ [] := List.ne_nil_of_length_pos (by omega)
        obtain ⟨first, others, hGrouping, hText⟩ := ih front.length (by omega) front rfl
        obtain ⟨a, b, c, rfl⟩ := List.length_eq_three.1 hLast
        refine ⟨first, others ++ [[a, b, c]], ⟨?_, fun _ => hGrouping.first_ne_nil hFront,
          hGrouping.length_first, ?_⟩, ?_⟩
        · rw [hGrouping.digits_eq]
          simp
        · exact List.forall_mem_append.2 ⟨hGrouping.length_others, by simp⟩
        · rw [groupThousands_append hFront, hText, ← List.cons_append,
            intercalate_append_singleton _ _ (List.cons_ne_nil first others)]
          rfl
      · exact ⟨digits, [], ⟨by simp, id, hFew, by simp⟩,
          (groupThousands_of_length_le hFew).trans List.intercalate_singleton.symm⟩

theorem filter_of_not_mem {text : List Char} (h : ',' ∉ text) :
    text.filter (· != ',') = text := by
  rw [List.filter_eq_self]
  intro c hMem
  rw [bne_iff_ne]
  rintro rfl
  exact h hMem

/-- Without the commas that were put between them, groups are in one again. -/
theorem filter_intercalate {groups : List (List Char)} (h : ∀ group ∈ groups, ',' ∉ group) :
    ([','].intercalate groups).filter (· != ',') = groups.flatten := by
  induction groups with
  | nil => rfl
  | cons first groups ih =>
      obtain ⟨hFirst, hGroups⟩ := List.forall_mem_cons.1 h
      have hKept := filter_of_not_mem hFirst
      cases groups with
      | nil => simpa using hKept
      | cons second groups =>
          rw [List.intercalate_cons_cons, List.filter_append, List.filter_append, hKept,
            ih hGroups]
          simp

/-- What may stand behind the whole part of a number with all its digits: nothing, or a
point and digits. -/
def IsFraction (rest : List Char) : Prop :=
  rest = [] ∨ ∃ digits, rest = '.' :: digits ∧ digits.all isAsciiDigit = true

section Plain

variable {whole rest : List Char} (hWhole : whole.all isAsciiDigit = true)
  (hRest : IsFraction rest)
include hWhole hRest

theorem not_mem_plain {c : Char} (hDigit : isAsciiDigit c = false) (hMinus : c ≠ '-')
    (hPoint : c ≠ '.') (negative : Bool) : c ∉ signed negative (whole ++ rest) := by
  have hFront : c ∉ whole := fun hMem =>
    absurd ((List.all_eq_true.1 hWhole c hMem).symm.trans hDigit) (by decide)
  have hBehind : c ∉ rest := by
    rcases hRest with rfl | ⟨digits, rfl, hDigits⟩
    · exact List.not_mem_nil
    · intro hMem
      rcases List.mem_cons.1 hMem with hEq | hMem
      · exact hPoint hEq
      · exact absurd ((List.all_eq_true.1 hDigits c hMem).symm.trans hDigit) (by decide)
  cases negative <;> simp [signed, hFront, hBehind, hMinus]

omit hRest in
theorem ne_point_of_mem : ∀ c ∈ whole, (c != '.') = true := by
  intro c hMem
  rw [bne_iff_ne]
  rintro rfl
  exact absurd (List.all_eq_true.1 hWhole _ hMem) (by decide)

theorem takeWhile_plain : (whole ++ rest).takeWhile (· != '.') = whole := by
  rw [List.takeWhile_append_of_pos (ne_point_of_mem hWhole)]
  rcases hRest with rfl | ⟨digits, rfl, -⟩
  · simp
  · simp

theorem dropWhile_plain : (whole ++ rest).dropWhile (· != '.') = rest := by
  rw [List.dropWhile_append_of_pos (ne_point_of_mem hWhole)]
  rcases hRest with rfl | ⟨digits, rfl, -⟩
  · rfl
  · exact List.dropWhile_cons_of_neg (by decide)

end Plain

/-- Of a number with all its digits, the whole part is grouped. -/
theorem groupedText_signed (negative : Bool) {whole rest : List Char}
    (hWhole : whole.all isAsciiDigit = true) (hRest : IsFraction rest) :
    groupedText (signed negative (whole ++ rest)) =
      signed negative (groupThousands whole ++ rest) := by
  have hLetter : 'e' ∉ signed negative (whole ++ rest) :=
    not_mem_plain hWhole hRest (by decide) (by decide) (by decide) negative
  have hCapital : 'E' ∉ signed negative (whole ++ rest) :=
    not_mem_plain hWhole hRest (by decide) (by decide) (by decide) negative
  have hError : signed negative (whole ++ rest) ≠ errorText := by
    intro hText
    rw [hText] at hCapital
    exact hCapital (by decide)
  have hTake := takeWhile_plain hWhole hRest
  have hDrop := dropWhile_plain hWhole hRest
  by_cases hZero : signed negative (whole ++ rest) = ['0']
  · cases negative with
    | true => cases hZero
    | false =>
        rw [signed, if_neg (by decide)] at hZero
        rw [hZero] at hTake hDrop
        rw [← hTake, ← hDrop]
        rfl
  · have hStays : ¬ (decide (signed negative (whole ++ rest) = errorText) ||
        decide (signed negative (whole ++ rest) = ['0']) ||
        (signed negative (whole ++ rest)).contains 'e') = true := by
      simp [hError, hZero, hLetter]
    rw [groupedText, if_neg hStays]
    cases negative with
    | true => simp [signed, hTake, hDrop]
    | false =>
        simp only [signed, Bool.false_eq_true, if_false, hTake, hDrop]
        split
        · exact absurd (List.all_eq_true.1 hWhole '-' List.mem_cons_self) (by decide)
        · rfl

/-- Grouping loses nothing. A number with all its digits keeps its sign and what stands
behind its whole part; the whole part is cut into groups of three digits with one comma
between them, of which the first may be shorter; and without the commas the text is back.
Scientific notation and the error text have no groups. -/
theorem grouping_lossless :
    (∀ (negative : Bool) (whole rest : List Char), whole.all isAsciiDigit = true →
      IsFraction rest →
      ∃ first others, IsGrouping whole first others ∧
        groupedText (signed negative (whole ++ rest)) =
          signed negative ([','].intercalate (first :: others) ++ rest) ∧
        (groupedText (signed negative (whole ++ rest))).filter (· != ',') =
          signed negative (whole ++ rest)) ∧
    (∀ text : List Char, 'e' ∈ text → groupedText text = text) ∧
    groupedText errorText = errorText := by
  refine ⟨fun negative whole rest hWhole hRest => ?_, fun text hLetter => ?_, rfl⟩
  · obtain ⟨first, others, hGrouping, hText⟩ := exists_grouping whole
    have hGrouped := groupedText_signed negative hWhole hRest
    rw [hText] at hGrouped
    refine ⟨first, others, hGrouping, hGrouped, ?_⟩
    have hFree : ',' ∉ whole ++ rest :=
      not_mem_plain hWhole hRest (by decide) (by decide) (by decide) false
    rw [List.mem_append, not_or, hGrouping.digits_eq, ← List.flatten_cons] at hFree
    have hGroups : ∀ group ∈ first :: others, ',' ∉ group := fun group hMem hComma =>
      hFree.1 (List.mem_flatten_of_mem hMem hComma)
    have hKept : ([','].intercalate (first :: others) ++ rest).filter (· != ',') =
        whole ++ rest := by
      rw [List.filter_append, filter_intercalate hGroups, filter_of_not_mem hFree.2,
        List.flatten_cons, ← hGrouping.digits_eq]
    rw [hGrouped, ← hKept]
    cases negative with
    | true => exact List.filter_cons_of_pos (by decide)
    | false => rfl
  · simp [groupedText, hLetter]

example : groupedText "-1234567.8901".toList = "-1,234,567.8901".toList := by
  decide +kernel

/-- The groups of `-1234567.8901`. -/
theorem grouping_lossless_millions :
    "1234567".toList.all isAsciiDigit = true ∧ IsFraction ".8901".toList ∧
      ∃ first others, IsGrouping "1234567".toList first others ∧
        groupedText "-1234567.8901".toList =
          '-' :: ([','].intercalate (first :: others) ++ ".8901".toList) ∧
        (groupedText "-1234567.8901".toList).filter (· != ',') = "-1234567.8901".toList ∧
      'e' ∈ "1.234568e+21".toList ∧
        groupedText "1.234568e+21".toList = "1.234568e+21".toList := by
  have hWhole : "1234567".toList.all isAsciiDigit = true := by decide
  have hRest : IsFraction ".8901".toList := .inr ⟨"8901".toList, rfl, by decide⟩
  have hLetter : 'e' ∈ "1.234568e+21".toList := by decide
  obtain ⟨first, others, hGrouping, hText, hBack⟩ :=
    grouping_lossless.1 true _ _ hWhole hRest
  exact ⟨hWhole, hRest, first, others, hGrouping, hText, hBack, hLetter,
    grouping_lossless.2.1 _ hLetter⟩

end KeypadCalculator
