import KeypadCalculator.Proofs.Phrase.Grammar

/-!
What the pass over the minus signs makes of a well-formed expression: the
tokens of the tree in which every minus sign has a left operand.
-/

namespace KeypadCalculator

namespace Phrase

def zero : Phrase := .literal ['0'] Binary64.zero

/-- The tree with a zero to subtract from in front of every minus sign, and
with parentheses around what the sign of an operand covers. -/
def completed : Phrase → Phrase
  | literal digits value => literal digits value
  | group inner => group inner.completed
  | negation operand => group (binary .subtract zero operand.completed)
  | opposite operand => binary .subtract zero operand.completed
  | binary op left right => binary op left.completed right.completed

/-- Every minus sign of the tree stands between two operands. -/
def Plain : Phrase → Prop
  | literal _ _ => True
  | group inner => inner.Plain
  | negation _ | opposite _ => False
  | binary _ left right => left.Plain ∧ right.Plain

theorem plain_completed (tree : Phrase) : tree.completed.Plain := by
  induction tree with
  | literal digits value => trivial
  | group inner ih => exact ih
  | negation operand ih => exact ⟨trivial, ih⟩
  | opposite operand ih => exact ⟨trivial, ih⟩
  | binary op left right ihLeft ihRight => exact ⟨ihLeft, ihRight⟩

theorem value?_zeroLiteral : PrefixMinus.zeroLiteral.value? = some Binary64.zero := by
  have hNumeral : Numeral.leading? ['0'] = some ⟨false, ['0'], [], false, []⟩ := by decide
  have hAscii : Numeral.isAscii ⟨false, ['0'], [], false, []⟩ = true := by decide
  have hCoefficient : Numeral.coefficient ⟨false, ['0'], [], false, []⟩ = 0 := by decide
  rw [PrefixMinus.zeroLiteral, Token.value?, Binary64.leading?, hNumeral]
  simp only [hAscii, if_pos, Binary64.ofDecimal, hCoefficient]
  rfl

theorem fits_zero (level : Nat) (signed : Bool) : Fits level signed zero :=
  .literal value?_zeroLiteral

/-- Completion keeps the shape, and leaves no operand signed. -/
theorem Fits.completed {level : Nat} {signed : Bool} {tree : Phrase}
    (h : Fits level signed tree) (signed' : Bool) : Fits level signed' tree.completed := by
  induction h generalizing signed' with
  | literal hValue => exact .literal hValue
  | group _ ih => exact .group (ih false)
  | negation _ ih =>
      exact .group (.binary (Nat.le_refl 1) (fits_zero 1 false)
        ((ih true).mono (by decide) (by decide)))
  | opposite _ ih => exact .binary (Nat.le_refl 1) (fits_zero 1 signed') (ih true)
  | binary hLevel _ _ ihLeft ihRight =>
      exact .binary hLevel (ihLeft signed') (ihRight _)

/-- A token that an operand ends with. -/
def EndsOperand : Token → Prop
  | .number _ | .closeParen => True
  | _ => False

theorem exists_tokens_completed (tree : Phrase) :
    ∃ front last, tree.completed.tokens = front ++ [last] ∧ EndsOperand last := by
  induction tree with
  | literal digits value => exact ⟨[], .number digits, rfl, trivial⟩
  | group inner _ =>
      exact ⟨.openParen :: inner.completed.tokens, .closeParen, rfl, trivial⟩
  | negation operand _ => exact ⟨_ :: _, .closeParen, rfl, trivial⟩
  | opposite operand ih =>
      obtain ⟨front, last, hTokens, hLast⟩ := ih
      exact ⟨zero.tokens ++ .operator .subtract :: front, last,
        by simp [completed, tokens, hTokens], hLast⟩
  | binary op left right _ ihRight =>
      obtain ⟨front, last, hTokens, hLast⟩ := ihRight
      exact ⟨left.completed.tokens ++ .operator op :: front, last,
        by simp [completed, tokens, hTokens], hLast⟩

end Phrase

namespace PrefixMinus

open Phrase

theorem close_of_lt {done : List Token} {depth : Nat} {waiting : List Nat}
    (h : ∀ d ∈ waiting, d < depth) : close done depth waiting = ⟨done, depth, waiting⟩ := by
  cases waiting with
  | nil => rfl
  | cons d waiting => rw [close, if_neg (Nat.ne_of_lt (h d List.mem_cons_self))]

/-- An operator behind an operand is taken over as it is. -/
theorem step_operator {done : List Token} {last : Token} (hLast : EndsOperand last)
    (depth : Nat) (waiting : List Nat) (op : Operator) :
    step ⟨last :: done, depth, waiting⟩ (.operator op) =
      ⟨.operator op :: last :: done, depth, waiting⟩ := by
  cases last with
  | number digits => cases op <;> rfl
  | closeParen => cases op <;> rfl
  | operator _ => exact hLast.elim
  | openParen => exact hLast.elim

/-- A minus sign directly behind an operator opens the group of a negation. -/
theorem step_negation {done : List Token} {op : Operator} (hOp : op ≠ .percent)
    (depth : Nat) (waiting : List Nat) :
    step ⟨.operator op :: done, depth, waiting⟩ (.operator .subtract) =
      ⟨.operator .subtract :: zeroLiteral :: .openParen :: .operator op :: done, depth + 1,
        (depth + 1) :: waiting⟩ := by
  rw [step, minus]
  simp only [if_neg hOp]

/-- The parentheses of a group keep the negations around it apart from what is inside,
and end those that wait for the group. -/
theorem foldl_step_group {inner out done : List Token} {depth : Nat} {waiting : List Nat}
    (hWaiting : ∀ d ∈ waiting, d ≤ depth)
    (hInner : inner.foldl step ⟨.openParen :: done, depth + 1, waiting⟩ =
      close (out.reverse ++ .openParen :: done) (depth + 1) waiting) :
    (.openParen :: (inner ++ [.closeParen])).foldl step ⟨done, depth, waiting⟩ =
      close (.closeParen :: (out.reverse ++ .openParen :: done)) depth waiting := by
  have hKept : waiting.filter (· ≤ depth) = waiting := by simpa using hWaiting
  rw [close_of_lt fun d hMem => Nat.lt_succ_of_le (hWaiting d hMem)] at hInner
  simp [step, hInner, hKept]

/-- What has to stand in front of a tree: an operator, where the tree may begin
with a sign, and the beginning of a sentence, where it may begin with the minus
sign of an opposite. -/
structure Ready (level : Nat) (signed : Bool) (done : List Token) : Prop where
  operator : signed = true → ∃ op rest, op ≠ .percent ∧ done = .operator op :: rest
  start : level = 1 → done = [] ∨ ∃ rest, done = .openParen :: rest

theorem ready_of_two_le {level : Nat} (hLevel : 2 ≤ level) (op : Operator)
    (rest : List Token) : Ready level (op != .percent) (.operator op :: rest) where
  operator hOp := ⟨op, rest, by simpa using hOp, rfl⟩
  start hOne := absurd (hOne ▸ hLevel) (by decide)

/-- The pass takes a tree over as its completion, and then closes the negations
that were waiting for it. Only an operand can have such negations directly in
front of it; in front of any other tree all of them wait for the end of a group
around it. -/
theorem foldl_step_tokens {level : Nat} {signed : Bool} {tree : Phrase}
    (h : Fits level signed tree) {done : List Token} {depth : Nat} {waiting : List Nat}
    (hReady : Ready level signed done) (hPositive : 1 ≤ level)
    (hWaiting : ∀ d ∈ waiting, d < depth ∨ d ≤ depth ∧ 4 ≤ level) :
    tree.tokens.foldl step ⟨done, depth, waiting⟩ =
      close (tree.completed.tokens.reverse ++ done) depth waiting := by
  induction h generalizing done depth waiting with
  | literal _ => rfl
  | @group level signed inner _ ih =>
      have hLe : ∀ d ∈ waiting, d ≤ depth := by grind
      have hInner := @ih (.openParen :: done) (depth + 1) waiting
        ⟨by simp, fun _ => .inr ⟨done, rfl⟩⟩ (Nat.le_refl 1)
        (fun d hMem => .inl (Nat.lt_succ_of_le (hLe d hMem)))
      simpa [tokens, completed] using foldl_step_group hLe hInner
  | @negation level operand _ ih =>
      obtain ⟨op, rest, hOp, rfl⟩ := hReady.operator rfl
      have hOperand := @ih
        (.operator .subtract :: zeroLiteral :: .openParen :: .operator op :: rest)
        (depth + 1) ((depth + 1) :: waiting)
        (ready_of_two_le (by decide) .subtract _) (by decide) (by grind)
      rw [tokens, List.foldl_cons, step_negation hOp, hOperand, close, if_pos rfl]
      simp [tokens, completed, zero, zeroLiteral]
  | @opposite operand _ ih =>
      have hStep : step ⟨done, depth, waiting⟩ (.operator .subtract) =
          ⟨.operator .subtract :: zeroLiteral :: done, depth, waiting⟩ := by
        rcases hReady.start rfl with rfl | ⟨rest, rfl⟩ <;> rfl
      rw [tokens, List.foldl_cons, hStep,
        ih (ready_of_two_le (by decide) .subtract _) (by decide) (by grind)]
      simp [tokens, completed, zero, zeroLiteral]
  | @binary level signed op left right hLevel _ _ ihLeft ihRight =>
      have hOp : op.level < 4 := by cases op <;> decide
      have hStrict : ∀ d ∈ waiting, d < depth := by grind
      have hLeft := @ihLeft done depth waiting
        ⟨hReady.operator, fun hOne => hReady.start (by omega)⟩ (by omega)
        (fun d hMem => .inl (hStrict d hMem))
      obtain ⟨front, last, hTokens, hLast⟩ := exists_tokens_completed left
      rw [close_of_lt hStrict, hTokens] at hLeft
      have hRight := @ihRight (.operator op :: last :: (front.reverse ++ done)) depth waiting
        (ready_of_two_le (by omega) op _) (by omega)
        (fun d hMem => .inl (hStrict d hMem))
      simp [tokens, completed, hLeft, step_operator hLast, hRight, hTokens]

/-- The pass over a sentence leaves exactly the tokens of its completion. -/
theorem complete_tokens {tree : Phrase} (h : Fits 1 false tree) :
    complete tree.tokens = tree.completed.tokens := by
  have hFold := @foldl_step_tokens _ _ _ h [] 0 []
    ⟨by simp, fun _ => .inl rfl⟩ (Nat.le_refl 1) (by simp)
  rw [complete, start, hFold]
  simp [close]

end PrefixMinus

end KeypadCalculator
