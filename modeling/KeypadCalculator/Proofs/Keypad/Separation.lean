import KeypadCalculator.Proofs.Keypad.Editing
import KeypadCalculator.Proofs.Keypad.PointsApart
import KeypadCalculator.Proofs.Token.Joining
import Mathlib.Data.List.Chain

/-!
What stands next to what in a typed expression. An operator takes the place of the
operator character in front of it, and a point is not typed behind another with no
operator character between them. Both are kept by every key in every mode, also where
an expression is shortened or where letters stand in it that end no literal.
-/

namespace KeypadCalculator

open Text

/-- No two operator characters stand next to each other. -/
def OperatorsApart (text : List Char) : Prop :=
  text.IsChain fun c next => ¬ (isOperatorChar c = true ∧ isOperatorChar next = true)

theorem operatorsApart_append_singleton {text : List Char} {c : Char} (h : OperatorsApart text)
    (hChar : isOperatorChar c = false) : OperatorsApart (text ++ [c]) := by
  refine List.isChain_append.mpr ⟨h, List.isChain_singleton c, ?_⟩
  rintro last - _ ⟨⟩ ⟨-, hOperator⟩
  rw [hChar] at hOperator
  cases hOperator

theorem operatorsApart_symbol (op : Operator) : OperatorsApart op.symbol := by
  cases op with
  | modulo => exact List.isChain_cons_cons.mpr ⟨by decide, List.isChain_pair.mpr (by decide)⟩
  | add | subtract | multiply | divide | percent => exact List.isChain_singleton _

theorem operatorsApart_append_symbol {text : List Char} (h : OperatorsApart text)
    (hEnd : ∀ last ∈ text.getLast?, isOperatorChar last = false) (op : Operator) :
    OperatorsApart (text ++ op.symbol) := by
  refine List.isChain_append.mpr ⟨h, operatorsApart_symbol op, ?_⟩
  rintro last hLast _ - ⟨hOperator, -⟩
  rw [hEnd last hLast] at hOperator
  cases hOperator

theorem OperatorsApart.of_append {front rest : List Char} (h : OperatorsApart (front ++ rest)) :
    OperatorsApart front :=
  (List.isChain_append.mp h).1

/-- In front of an operator character stands none. -/
theorem OperatorsApart.not_operator_front {front : List Char} {last : Char}
    (h : OperatorsApart (front ++ [last])) (hLast : isOperatorChar last = true) :
    ∀ c ∈ front.getLast?, isOperatorChar c = false := by
  intro c hMem
  have hPair := (List.isChain_append.mp h).2.2 c hMem last rfl
  rw [Bool.eq_false_iff]
  exact fun hOperator => hPair ⟨hOperator, hLast⟩

theorem Edits.operatorsApart {key : Key} {text edited : List Char} (h : Edits key text edited)
    (hApart : OperatorsApart text) : OperatorsApart edited := by
  cases h with
  | keep => exact hApart
  | clear => exact List.isChain_nil
  | erase =>
      obtain ⟨last, hLast⟩ := List.dropLast_prefix text
      rw [← hLast] at hApart
      exact hApart.of_append
  | append _ _ hPlain => exact operatorsApart_append_singleton hApart hPlain.isOperatorChar
  | point _ => exact operatorsApart_append_singleton hApart (by decide)
  | operator op hEnd => exact operatorsApart_append_symbol hApart hEnd op
  | replace op front hLast =>
      exact operatorsApart_append_symbol hApart.of_append (hApart.not_operator_front hLast) op

/-! ### Points -/

theorem PointsApart.of_append {front rest : List Char} (h : PointsApart (front ++ rest)) :
    PointsApart front := by
  rintro before between behind rfl
  exact h before between (behind ++ rest) (by simp)

theorem pointsApart_append_singleton {text : List Char} {c : Char} (h : PointsApart text)
    (hPoint : c = '.' → Session.hasPoint text = false) : PointsApart (text ++ [c]) := by
  intro front between behind hText
  rcases List.eq_nil_or_concat behind with rfl | ⟨behind, last, rfl⟩
  · -- The character is the second point, and the first one is in the text.
    have hSplit : text ++ [c] = (front ++ '.' :: between) ++ ['.'] := by simpa using hText
    obtain ⟨rfl, hLast⟩ := List.append_inj' hSplit rfl
    obtain rfl : c = '.' := (List.cons.inj hLast).1
    by_contra hNone
    have hPointed : Session.hasPoint (front ++ '.' :: between) = true :=
      (hasPoint_iff _).mpr ⟨front, between, rfl, by simpa using hNone⟩
    rw [hPoint rfl] at hPointed
    cases hPointed
  · have hSplit : text ++ [c] = (front ++ '.' :: (between ++ '.' :: behind)) ++ [last] := by
      simpa using hText
    exact h front between behind (List.append_inj' hSplit rfl).1

theorem pointsApart_append {text rest : List Char} (h : PointsApart text) (hRest : '.' ∉ rest) :
    PointsApart (text ++ rest) := by
  induction rest generalizing text with
  | nil => rwa [List.append_nil]
  | cons c rest ih =>
      have hChar : c ≠ '.' := fun hPoint => hRest (hPoint ▸ List.mem_cons_self)
      have hFirst := pointsApart_append_singleton h fun hPoint => absurd hPoint hChar
      rw [List.append_cons]
      exact ih hFirst fun hMem => hRest (List.mem_cons_of_mem c hMem)

theorem point_not_mem_symbol (op : Operator) : '.' ∉ op.symbol := by
  cases op <;> decide

theorem Edits.pointsApart {key : Key} {text edited : List Char} (h : Edits key text edited)
    (hApart : PointsApart text) : PointsApart edited := by
  cases h with
  | keep => exact hApart
  | clear =>
      intro front between behind hText
      simp at hText
  | erase =>
      obtain ⟨last, hLast⟩ := List.dropLast_prefix text
      rw [← hLast] at hApart
      exact hApart.of_append
  | append _ _ hPlain =>
      exact pointsApart_append hApart
        (by simpa using (hPlain.ne (d := '.') (by decide) (by decide)).symm)
  | point hPoint => exact pointsApart_append_singleton hApart fun _ => hPoint
  | operator op _ => exact pointsApart_append hApart (point_not_mem_symbol op)
  | replace op front _ => exact pointsApart_append hApart.of_append (point_not_mem_symbol op)

/-- A stretch without an operator character holds one point at most. -/
theorem PointsApart.count_le_one {text stretch : List Char} (h : PointsApart text)
    (hInfix : stretch <:+: text) (hStretch : ∀ c ∈ stretch, isOperatorChar c = false) :
    stretch.count '.' ≤ 1 := by
  by_contra hCount
  obtain ⟨front, rest, rfl, hFront⟩ := List.eq_append_cons_of_mem
    (List.count_pos_iff.mp (show 0 < stretch.count '.' by omega))
  rw [List.count_append, List.count_cons_self, List.count_eq_zero.mpr hFront] at hCount
  obtain ⟨between, behind, rfl⟩ := List.append_of_mem
    (List.count_pos_iff.mp (show 0 < rest.count '.' by omega))
  obtain ⟨before, after, hText⟩ := hInfix
  obtain ⟨c, hMem, hOperator⟩ := h (before ++ front) between (behind ++ after)
    (by rw [← hText]; simp)
  rw [hStretch c (by simp [hMem])] at hOperator
  cases hOperator

namespace Session

/-- Whatever is typed, and in whatever modes, no two operator characters stand next
to each other, and no literal holds more than one point. -/
theorem operators_points_apart {moves : List (Key × InputMode)} {ascii : Bool}
    {typed : List Char} (hKeys : moves.map Prod.fst = Key.ofTyping ascii typed) :
    let text := (new.pressEach moves).expression
    OperatorsApart text ∧
      ∀ literal, .number literal ∈ Token.ofText text → literal.count '.' ≤ 1 := by
  intro text
  have hAscii := Key.isAscii_of_map_fst hKeys
  have hNone : OperatorsApart new.expression ∧ PointsApart new.expression :=
    ⟨List.isChain_nil, fun _ _ _ hNil => by simp [new] at hNil⟩
  have hOperators : OperatorsApart text := pressEach_of_edits Edits.operatorsApart hNone.1 hAscii
  have hPoints : PointsApart text := pressEach_of_edits Edits.pointsApart hNone.2 hAscii
  refine ⟨hOperators, fun literal hMem => ?_⟩
  obtain ⟨stretch, hInfix, hStretch, hLiteral⟩ := Token.isGathered_of_mem_ofText hMem
  exact (hLiteral.count_le '.').trans (hPoints.count_le_one hInfix hStretch)

/-- Behind a cut modulo operator the number in front of it goes on, and takes no
second point, not even behind another modulo operator that takes the place of a plus
sign. -/
theorem operators_points_apart_cut :
    let moves : List (Key × InputMode) := [(.digit '1', .strict), (.decimal, .strict),
      (.operator .modulo, .strict), (.backspace, .strict), (.decimal, .advisory),
      (.digit '5', .advisory), (.operator .add, .strict), (.operator .add, .advisory),
      (.operator .modulo, .advisory), (.decimal, .advisory), (.operator .subtract, .strict)]
    let text := (new.pressEach moves).expression
    moves.map Prod.fst = Key.ofTyping true "1.mod<.5++mod.-".toList ∧
      text = "1.mo5mod-".toList ∧
      (OperatorsApart text ∧
        ∀ literal, .number literal ∈ Token.ofText text → literal.count '.' ≤ 1) := by
  intro moves text
  have hKeys : moves.map Prod.fst = Key.ofTyping true "1.mod<.5++mod.-".toList := by decide
  exact ⟨hKeys, by decide, operators_points_apart hKeys⟩

end Session

end KeypadCalculator
