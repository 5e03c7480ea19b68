import KeypadCalculator.Proofs.Keypad.Nesting
import KeypadCalculator.Proofs.Phrase.Depth
import KeypadCalculator.Proofs.Phrase.Released

/-!
Parentheses around a whole text. They change neither what the pass over the minus
signs inserts nor the postfix order, whether or not the text has partners for
them, so any text evaluates as if its own parentheses were balanced from outside.
-/

namespace KeypadCalculator

namespace PrefixMinus

theorem foldl_step_openParens (opens depth : Nat) (done : List Token) :
    (List.replicate opens .openParen).foldl step ⟨done, depth, []⟩ =
      ⟨List.replicate opens .openParen ++ done, depth + opens, []⟩ := by
  induction opens generalizing depth done with
  | zero => rfl
  | succ opens ih =>
      rw [List.replicate_succ, List.foldl_cons, step, ih, ← List.replicate_succ,
        List.replicate_succ']
      simp [Nat.add_assoc, Nat.add_comm 1]

/-- The pass takes over open parentheses in front of all tokens. -/
theorem complete_openParens (opens : Nat) (tokens : List Token) :
    complete (List.replicate opens .openParen ++ tokens) =
      List.replicate opens .openParen ++ complete tokens := by
  cases opens with
  | zero => rfl
  | succ opens =>
      have hStart : (List.replicate (opens + 1) Token.openParen).foldl step start =
          start.behind (.openParen :: List.replicate opens .openParen) (opens + 1) := by
        rw [start, foldl_step_openParens, List.replicate_succ]
        simp [behind]
      have hNone : Waits start.depth start.waiting := Waits.none 0
      obtain ⟨left, hRun⟩ := exists_foldl_behind hNone (List.replicate opens .openParen)
        (opens + 1) tokens
      rw [complete, List.foldl_append, hStart, hRun, behind, ← List.replicate_succ,
        List.reverse_append, List.reverse_replicate, complete]

theorem exists_done_closeParens (closes : Nat) (s : PrefixMinus) :
    ∃ written, ((List.replicate closes .closeParen).foldl step s).done =
      List.replicate written .closeParen ++ s.done := by
  induction closes generalizing s with
  | zero => exact ⟨0, rfl⟩
  | succ closes ih =>
      obtain ⟨rest, hRest⟩ := ih (s.step .closeParen)
      obtain ⟨first, hFirst⟩ := exists_done_close (.closeParen :: s.done) (s.depth - 1)
        (s.waiting.filter (· ≤ s.depth - 1))
      refine ⟨rest + (first + 1), ?_⟩
      rw [List.replicate_succ, List.foldl_cons, hRest, step, hFirst,
        ← List.replicate_append_replicate, List.replicate_succ']
      simp

/-- Behind closing parentheses the pass writes closing parentheses only. -/
theorem exists_complete_closeParens (tokens : List Token) (closes : Nat) :
    ∃ written, complete (tokens ++ List.replicate closes .closeParen) =
      complete tokens ++ List.replicate written .closeParen := by
  obtain ⟨written, hDone⟩ := exists_done_closeParens closes (tokens.foldl step start)
  exact ⟨written, by simp [complete, hDone]⟩

end PrefixMinus

/-- Open parentheses below everything that is pending leave no trace. -/
theorem postfixFrom_append_openParens (tokens : List Token) (stack : List Pending)
    (opened : Nat) :
    postfixFrom (stack ++ List.replicate opened .openParen) tokens = postfixFrom stack tokens := by
  induction tokens generalizing stack opened with
  | nil => exact Pending.releaseAll_append_openParens stack opened
  | cons token tokens ih =>
      cases token with
      | number digits => simp only [postfixFrom, ih]
      | operator op =>
          rw [postfixFrom, Pending.release_append_openParens, postfixFrom]
          exact congrArg _ (ih (.operator op :: (Pending.release op stack).2) opened)
      | openParen => exact ih (.openParen :: stack) opened
      | closeParen =>
          obtain ⟨left, hRelease⟩ := Pending.releaseGroup_append_openParens stack opened
          rw [postfixFrom, hRelease, postfixFrom]
          exact congrArg _ (ih (Pending.releaseGroup stack).2 left)

theorem postfixFrom_openParens (opens : Nat) (stack : List Pending) (tokens : List Token) :
    postfixFrom stack (List.replicate opens .openParen ++ tokens) =
      postfixFrom (List.replicate opens .openParen ++ stack) tokens := by
  induction opens generalizing stack with
  | zero => rfl
  | succ opens ih =>
      rw [List.replicate_succ, List.cons_append, postfixFrom, ih, List.replicate_succ']
      simp

/-- Closing parentheses release what would be released anyway. -/
theorem postfixFrom_closeParens (closes : Nat) (stack : List Pending) :
    postfixFrom stack (List.replicate closes .closeParen) = Pending.releaseAll stack := by
  induction closes generalizing stack with
  | zero => rfl
  | succ closes ih =>
      rw [List.replicate_succ, postfixFrom]
      exact (congrArg _ (ih _)).trans (Pending.releaseGroup_append_releaseAll stack)

theorem postfixFrom_append_closeParens (tokens : List Token) (stack : List Pending)
    (closes : Nat) :
    postfixFrom stack (tokens ++ List.replicate closes .closeParen) = postfixFrom stack tokens := by
  induction tokens generalizing stack with
  | nil => exact postfixFrom_closeParens closes stack
  | cons token tokens ih => cases token <;> simp only [List.cons_append, postfixFrom, ih]

theorem toPostfix_complete_wrapped (opens closes : Nat) (tokens : List Token) :
    toPostfix (PrefixMinus.complete (List.replicate opens .openParen ++ tokens ++
        List.replicate closes .closeParen)) = toPostfix (PrefixMinus.complete tokens) := by
  obtain ⟨written, hComplete⟩ := PrefixMinus.exists_complete_closeParens
    (List.replicate opens .openParen ++ tokens) closes
  have hBelow := postfixFrom_append_openParens (PrefixMinus.complete tokens) [] opens
  rw [hComplete, PrefixMinus.complete_openParens, toPostfix, postfixFrom_append_closeParens,
    postfixFrom_openParens, List.append_nil]
  exact hBelow

/-- A text with parentheses around all of it. -/
def wrap (opens : Nat) (text : List Char) (closes : Nat) : List Char :=
  List.replicate opens '(' ++ text ++ List.replicate closes ')'

theorem ofText_openParens (opens : Nat) (text : List Char) :
    Token.ofText (List.replicate opens '(' ++ text) =
      List.replicate opens .openParen ++ Token.ofText text := by
  induction opens with
  | zero => rfl
  | succ opens ih =>
      have hOpen := Token.ofText_append_openParen [] (List.replicate opens '(' ++ text)
      rw [List.replicate_succ, List.replicate_succ, List.cons_append, List.cons_append, ← ih]
      exact hOpen

theorem ofText_closeParens (text : List Char) (closes : Nat) :
    Token.ofText (text ++ List.replicate closes ')') =
      Token.ofText text ++ List.replicate closes .closeParen := by
  induction closes with
  | zero => simp
  | succ closes ih =>
      have hClose := Token.ofText_append_closeParen (text ++ List.replicate closes ')') []
      rw [List.replicate_succ', ← List.append_assoc, hClose, ih, List.replicate_succ']
      exact List.append_assoc ..

theorem ofText_wrap (opens : Nat) (text : List Char) (closes : Nat) :
    Token.ofText (wrap opens text closes) =
      List.replicate opens .openParen ++ Token.ofText text ++
        List.replicate closes .closeParen := by
  rw [wrap, ofText_closeParens, ofText_openParens]

/-- The parentheses of a text that have no partner in it. -/
structure Unmatched where
  opened : Nat
  closed : Nat
  deriving DecidableEq, Repr

namespace Unmatched

/-- A closing parenthesis is the partner of an open one in front of it, if one is
left. -/
def step (u : Unmatched) (c : Char) : Unmatched :=
  if c = '(' then { u with opened := u.opened + 1 }
  else if c = ')' then
    if u.opened = 0 then { u with closed := u.closed + 1 }
    else { u with opened := u.opened - 1 }
  else u

def ofText (text : List Char) : Unmatched :=
  text.foldl step ⟨0, 0⟩

/-- With a partner in front for each closing parenthesis that lacks one, what
stays open is what has no partner. -/
theorem foldlM_nest (text : List Char) (u : Unmatched) :
    ∃ missing, (text.foldl step u).closed = u.closed + missing ∧
      text.foldlM nest (u.opened + missing) = some (text.foldl step u).opened := by
  induction text generalizing u with
  | nil => exact ⟨0, rfl, rfl⟩
  | cons c text ih =>
      obtain ⟨missing, hClosed, hNest⟩ := ih (u.step c)
      rw [List.foldl_cons, hClosed]
      by_cases hOpen : c = '('
      · subst hOpen
        refine ⟨missing, rfl, ?_⟩
        rw [List.foldlM_cons, ← hNest]
        simp [step, nest, Nat.add_right_comm]
      · by_cases hClose : c = ')'
        · subst hClose
          by_cases hZero : u.opened = 0
          · refine ⟨missing + 1, by simp [step, hZero, Nat.add_assoc, Nat.add_comm 1], ?_⟩
            rw [List.foldlM_cons, ← hNest]
            simp [step, nest, hZero]
          · refine ⟨missing, by simp [step, hZero], ?_⟩
            have hLower : u.opened + missing - 1 = u.opened - 1 + missing := by omega
            rw [List.foldlM_cons, ← hNest]
            simp [step, nest, hZero, hLower]
        · refine ⟨missing, by simp [step, hOpen, hClose], ?_⟩
          rw [List.foldlM_cons, nest_of_ne hOpen hClose, ← hNest]
          simp [step, hOpen, hClose]

end Unmatched

theorem foldlM_nest_openParens (opens depth : Nat) :
    (List.replicate opens '(').foldlM nest depth = some (depth + opens) := by
  induction opens generalizing depth with
  | zero => rfl
  | succ opens ih =>
      rw [List.replicate_succ, List.foldlM_cons]
      exact (ih (depth + 1)).trans (by rw [Nat.add_right_comm, Nat.add_assoc])

theorem isBalanced_wrap_unmatched (text : List Char) :
    isBalanced (Token.ofText
      (wrap (Unmatched.ofText text).closed text (Unmatched.ofText text).opened)) = true := by
  obtain ⟨missing, hClosed, hNest⟩ := Unmatched.foldlM_nest text ⟨0, 0⟩
  have hMissing : (Unmatched.ofText text).closed = missing := by
    simpa [Unmatched.ofText] using hClosed
  have hText : text.foldlM nest missing = some (Unmatched.ofText text).opened := by
    simpa [Unmatched.ofText] using hNest
  rw [isBalanced_ofText, wrap, hMissing, List.append_assoc, List.foldlM_append,
    foldlM_nest_openParens]
  simp only [Nat.zero_add, Option.bind_eq_bind, Option.bind_some, List.foldlM_append, hText,
    nest_closeParens, BEq.rfl]

/-- Parentheses around a text change nothing about what it comes to. Those that
bring a partner to each of its own are among them: it evaluates as if what it opens
were closed at its end, and what it closes opened at its beginning. -/
theorem evaluate_wrap (text : List Char) :
    (∀ opens closes,
      (evaluate (wrap opens text closes)).outcome = (evaluate text).outcome ∧
        (evaluate (wrap opens text closes)).value? = (evaluate text).value? ∧
        (evaluate (wrap opens text closes)).display = (evaluate text).display ∧
        (evaluate (wrap opens text closes)).fault? = (evaluate text).fault?) ∧
      isBalanced (Token.ofText
        (wrap (Unmatched.ofText text).closed text (Unmatched.ofText text).opened)) = true := by
  refine ⟨fun opens closes => ?_, isBalanced_wrap_unmatched text⟩
  have hOutcome : (evaluate (wrap opens text closes)).outcome = (evaluate text).outcome := by
    rw [evaluate_outcome, evaluate_outcome, ofText_wrap, evaluateTokens,
      toPostfix_complete_wrapped, ← evaluateTokens]
  simp only [Evaluation.value?, Evaluation.display, Evaluation.fault?, hOutcome, and_self]

end KeypadCalculator
