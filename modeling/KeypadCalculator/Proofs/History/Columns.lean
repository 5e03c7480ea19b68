import KeypadCalculator.CommandLine.Run

/-!
Texts fitted into columns. A text that is too long is cut, and the ellipsis in place of
its end counts towards the width. A column narrower than the ellipsis is overrun: the
ellipsis is written whole and nothing else. The columns of the history list are wide
enough for that not to happen.
-/

namespace KeypadCalculator

namespace Text

theorem clip_of_length_le {width : Nat} {text : List Char} (h : text.length ≤ width) :
    clip width text = text :=
  if_pos h

theorem clip_of_lt_length {width : Nat} {text : List Char} (h : width < text.length) :
    clip width text = text.take (width - 3) ++ ellipsis :=
  if_neg (Nat.not_le_of_lt h)

/-- A text that is cut is as long as the column is wide, and never shorter than the
ellipsis. -/
theorem length_clip_of_lt_length {width : Nat} {text : List Char} (h : width < text.length) :
    (clip width text).length = max width 3 := by
  have hKept : (text.take (width - 3)).length = width - 3 :=
    List.length_take_of_le (Nat.le_of_lt (Nat.lt_of_le_of_lt (Nat.sub_le width 3) h))
  have hEllipsis : ellipsis.length = 3 := rfl
  rw [clip_of_lt_length h, List.length_append, hKept, hEllipsis]
  omega

/-- A column that the ellipsis fits into is never overrun. -/
theorem length_clip_le {width : Nat} (h : 3 ≤ width) (text : List Char) :
    (clip width text).length ≤ width := by
  rcases Nat.lt_or_ge width text.length with hLonger | hFits
  · rw [length_clip_of_lt_length hLonger]
    exact Nat.max_le.mpr ⟨Nat.le_refl width, h⟩
  · rwa [clip_of_length_le hFits]

/-- A text that fits stays as it is. Of a longer one a beginning stays with the ellipsis
behind it, and that fits exactly if the column is at least as wide as the ellipsis. -/
theorem clip_fits_iff (width : Nat) (text : List Char) :
    ((clip width text).length ≤ width ↔ text.length ≤ width ∨ 3 ≤ width) ∧
      (text.length ≤ width ∧ clip width text = text ∨
        width < text.length ∧ ∃ kept, kept <+: text ∧ clip width text = kept ++ ellipsis ∧
          kept.length = width - 3) := by
  rcases Nat.lt_or_ge width text.length with hLonger | hFits
  · have hLength := length_clip_of_lt_length hLonger
    refine ⟨?_, .inr ⟨hLonger, text.take (width - 3), List.take_prefix _ _,
      clip_of_lt_length hLonger, ?_⟩⟩
    · rw [hLength]
      omega
    · rw [List.length_take]
      omega
  · rw [clip_of_length_le hFits]
    exact ⟨⟨fun _ => .inl hFits, fun _ => hFits⟩, .inl ⟨hFits, rfl⟩⟩

/-- A column without any width is overrun by the ellipsis. -/
theorem clip_overruns_no_width : ¬ (clip 0 "2+3".toList).length ≤ 0 := by
  decide

theorem length_padRight (width : Nat) (text : List Char) :
    (padRight width text).length = max text.length width := by
  rw [padRight, List.length_append, List.length_replicate]
  omega

end Text

namespace CommandLine

/-- In every line of the history list thirty characters are for the expression, whatever
its length is. -/
theorem exists_historyLine_column (settings : Settings) (now : UInt64) (e : Entry) :
    ∃ column behind, historyLine settings now e = column ++ ("  = ".toList ++ behind) ∧
      column.length = 30 ∧ (e.expression.length ≤ 30 → e.expression <+: column) := by
  refine ⟨Text.padRight 30 (Text.clip 30 e.expression), _, by simp [historyLine]; rfl, ?_, ?_⟩
  · rw [Text.length_padRight, Nat.max_eq_right (Text.length_clip_le (by decide) e.expression)]
  · intro hFits
    rw [Text.clip_of_length_le hFits]
    exact List.prefix_append _ _

end CommandLine

end KeypadCalculator
