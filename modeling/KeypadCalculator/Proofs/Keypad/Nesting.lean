import KeypadCalculator.Proofs.Keypad.Alternation

/-!
Which typed expressions can be completed. How an expression ends does not tell
how many of its parentheses are open, so strict mode also takes a closing
parenthesis that closes nothing, and what has one can never be completed.
-/

namespace KeypadCalculator

open Text

/-- The number of open parentheses behind one more character, and nothing once
more were closed than opened. -/
def nest (depth : Nat) (c : Char) : Option Nat :=
  if c = '(' then some (depth + 1)
  else if c = ')' then if depth = 0 then none else some (depth - 1)
  else some depth

theorem nest_of_ne {c : Char} (hOpen : c ≠ '(') (hClose : c ≠ ')') (depth : Nat) :
    nest depth c = some depth := by
  simp [nest, hOpen, hClose]

theorem foldlM_parenStep_ofRun (run : List Char) (depth : Nat) :
    (Token.ofRun run).foldlM parenStep depth = some depth := by
  cases run <;> rfl

/-- A parenthesis is a token of its own, and no other token is made of one. -/
theorem foldlM_parenStep_gather (run text : List Char) (depth : Nat) :
    (Token.gather run (Glyph.ofText text)).foldlM parenStep depth = text.foldlM nest depth := by
  fun_induction Glyph.ofText text generalizing run depth with
  | case1 rest ih =>
      rw [Token.gather, Glyph.role]
      simp only [List.foldlM_append, foldlM_parenStep_ofRun, List.foldlM_cons]
      exact ih [] depth
  | case2 c rest _ ih =>
      rw [List.foldlM_cons, Token.gather]
      by_cases hOpen : c = '('
      · subst hOpen
        have hRole : Glyph.role (.character '(') = .token .openParen := by decide
        simp only [hRole, List.foldlM_append, foldlM_parenStep_ofRun, List.foldlM_cons]
        exact ih [] (depth + 1)
      · by_cases hClose : c = ')'
        · subst hClose
          have hRole : Glyph.role (.character ')') = .token .closeParen := by decide
          simp only [hRole, List.foldlM_append, foldlM_parenStep_ofRun, List.foldlM_cons]
          cases depth with
          | zero => rfl
          | succ depth => exact ih [] depth
        · rw [nest_of_ne hOpen hClose]
          cases hRole : Glyph.role (.character c) with
          | literal d => exact ih (run ++ [d]) depth
          | token token =>
              obtain ⟨op, rfl⟩ := Glyph.exists_operator_of_role hOpen hClose hRole
              simp only [List.foldlM_append, foldlM_parenStep_ofRun, List.foldlM_cons]
              exact ih [] depth
          | gap =>
              simp only [List.foldlM_append, foldlM_parenStep_ofRun]
              exact ih [] depth
          | ignored => exact ih run depth
  | case3 => exact foldlM_parenStep_ofRun run depth

theorem isBalanced_ofText (text : List Char) :
    isBalanced (Token.ofText text) = (text.foldlM nest 0 == some 0) := by
  rw [isBalanced, Token.ofText, foldlM_parenStep_gather]

/-- Parentheses stay closable as long as no more were closed than were opened. -/
theorem isSome_foldlM_nest (text : List Char) (depth : Nat) :
    (text.foldlM nest depth).isSome = true ↔
      ∀ front, front <+: text → front.count ')' ≤ depth + front.count '(' := by
  induction text generalizing depth with
  | nil => simp
  | cons c rest ih =>
      have hFronts : (∀ front, front <+: c :: rest → front.count ')' ≤ depth + front.count '(') ↔
          ∀ front, front <+: rest →
            (c :: front).count ')' ≤ depth + (c :: front).count '(' := by
        constructor
        · intro h front hFront
          exact h _ ((List.prefix_cons_inj c).mpr hFront)
        · intro h front hFront
          rcases List.prefix_cons_iff.mp hFront with rfl | ⟨tail, rfl, hTail⟩
          · simp
          · exact h tail hTail
      rw [hFronts, List.foldlM_cons]
      by_cases hOpen : c = '('
      · subst hOpen
        refine (ih (depth + 1)).trans (forall_congr' fun front => imp_congr_right fun _ => ?_)
        simp
        omega
      · by_cases hClose : c = ')'
        · subst hClose
          cases depth with
          | zero =>
              refine ⟨fun h => absurd h (by simp [nest]), fun h => ?_⟩
              have hEmpty := h [] List.nil_prefix
              simp at hEmpty
          | succ depth =>
              refine (ih depth).trans (forall_congr' fun front => imp_congr_right fun _ => ?_)
              simp
              omega
        · rw [nest_of_ne hOpen hClose]
          refine (ih depth).trans (forall_congr' fun front => imp_congr_right fun _ => ?_)
          simp [hOpen, hClose]

/-- An expression that closes more than it opens is beyond completion. -/
theorem count_le_of_isComplete {text rest : List Char} (h : isComplete (text ++ rest) = true)
    {front : List Char} (hFront : front <+: text) : front.count ')' ≤ front.count '(' := by
  rw [isComplete, Bool.and_eq_true, isBalanced_ofText, List.foldlM_append] at h
  obtain ⟨depth, hDepth, -⟩ := Option.bind_eq_some_iff.mp (eq_of_beq h.1)
  have hSome : (text.foldlM nest 0).isSome = true := by rw [hDepth]; rfl
  simpa using (isSome_foldlM_nest text 0).mp hSome front hFront

namespace Ending

/-- What brings an operand to its end: the rest of the modulo operator and an
operand, or an operand alone, or nothing. -/
def filler : Ending → List Char
  | .opened | .operator | .modulo => ['1']
  | .letterM => ['o', 'd', '1']
  | .lettersMo => ['d', '1']
  | _ => []

theorem run_filler (e : Ending) :
    ∃ last, e.filler.foldlM next? e = some last ∧ last.endsOperand = true := by
  cases e <;> exact ⟨_, rfl, rfl⟩

theorem nest_filler (e : Ending) (depth : Nat) : e.filler.foldlM nest depth = some depth := by
  cases e <;> rfl

theorem run_closeParens {e : Ending} (h : e.endsOperand = true) (depth : Nat) :
    ∃ last, (List.replicate depth ')').foldlM next? e = some last ∧ last.endsOperand = true := by
  induction depth generalizing e with
  | zero => exact ⟨e, rfl, h⟩
  | succ depth ih =>
      have hNext : e.next? ')' = some .closed := by
        cases e <;> first | rfl | cases h
      rw [List.replicate_succ, List.foldlM_cons, hNext]
      have hClosed : closed.endsOperand = true := rfl
      exact ih hClosed

end Ending

theorem nest_closeParens (depth : Nat) :
    (List.replicate depth ')').foldlM nest depth = some 0 := by
  induction depth with
  | zero => rfl
  | succ depth ih =>
      rw [List.replicate_succ, List.foldlM_cons]
      exact ih

/-- An expression that has an ending and closes no more than it opens is
completed by an operand, if one is missing, and its closing parentheses. -/
theorem exists_isComplete_append {text : List Char} {e : Ending} (h : Ending.of? text = some e)
    {depth : Nat} (hDepth : text.foldlM nest 0 = some depth) :
    isComplete (text ++ (e.filler ++ List.replicate depth ')')) = true := by
  obtain ⟨filled, hFilled, hOperand⟩ := e.run_filler
  obtain ⟨last, hLast, hEnds⟩ := Ending.run_closeParens hOperand depth
  have hEnding : Ending.of? (text ++ (e.filler ++ List.replicate depth ')')) = some last := by
    rw [Ending.of?_append h, List.foldlM_append, hFilled]
    exact hLast
  obtain ⟨q, hPosition, hEnded⟩ := Ending.exists_position hEnding
  have hBalanced : (text ++ (e.filler ++ List.replicate depth ')')).foldlM nest 0 = some 0 := by
    rw [List.foldlM_append, hDepth]
    change (e.filler ++ List.replicate depth ')').foldlM nest depth = some 0
    rw [List.foldlM_append, e.nest_filler]
    exact nest_closeParens depth
  have hAwaits : last.awaitsOperand = false := by
    cases last <;> first | rfl | cases hEnds
  rw [isComplete, Bool.and_eq_true, isBalanced_ofText, hBalanced]
  exact ⟨by simp, (Position.ended_iff_getLast? hPosition).mp (hEnded.mpr hAwaits)⟩

/-- Whatever keys are pressed in strict mode, the expression can still be
completed exactly if no part of it from the start closes more parentheses than
it opens. -/
theorem exists_isComplete_append_strict_iff {keys : List Key} (hKeys : ∀ key ∈ keys, key.IsAscii) :
    (∃ rest, isComplete ((Session.new.pressAll keys .strict).expression ++ rest) = true) ↔
      ∀ front, front <+: (Session.new.pressAll keys .strict).expression →
        front.count ')' ≤ front.count '(' := by
  constructor
  · rintro ⟨rest, hComplete⟩ front hFront
    exact count_le_of_isComplete hComplete hFront
  · intro hCounts
    obtain ⟨e, hEnding⟩ := Session.isTyped_new hKeys
    have hSome := (isSome_foldlM_nest (Session.new.pressAll keys .strict).expression 0).mpr
      (by simpa using hCounts)
    obtain ⟨depth, hDepth⟩ := Option.isSome_iff_exists.mp hSome
    exact ⟨_, exists_isComplete_append hEnding hDepth⟩

/-- The keys of `2×(`, to which an operand and a closing parenthesis are lacking. -/
theorem exists_isComplete_append_strict_opened :
    (∀ key ∈ Key.ofTyping true "2×(".toList, key.IsAscii) ∧
      ((∃ rest, isComplete ((Session.new.pressAll
          (Key.ofTyping true "2×(".toList) .strict).expression ++ rest) = true) ↔
        ∀ front, front <+: (Session.new.pressAll
            (Key.ofTyping true "2×(".toList) .strict).expression →
          front.count ')' ≤ front.count '(') := by
  have hKeys := Key.isAscii_of_mem_ofTyping true "2×(".toList
  exact ⟨hKeys, exists_isComplete_append_strict_iff hKeys⟩

/-- Strict mode takes the parenthesis of `1)`, which nothing can complete. -/
theorem not_exists_isComplete_append_strict_closed :
    (∀ key ∈ Key.ofTyping true "1)".toList, key.IsAscii) ∧
      ¬ ∃ rest, isComplete ((Session.new.pressAll
        (Key.ofTyping true "1)".toList) .strict).expression ++ rest) = true := by
  have hTyped : (Session.new.pressAll (Key.ofTyping true "1)".toList) .strict).expression =
      ['1', ')'] := by decide
  refine ⟨Key.isAscii_of_mem_ofTyping true "1)".toList, ?_⟩
  rw [hTyped]
  rintro ⟨rest, hComplete⟩
  have hCount := count_le_of_isComplete hComplete List.prefix_rfl
  exact absurd hCount (by decide)

end KeypadCalculator
