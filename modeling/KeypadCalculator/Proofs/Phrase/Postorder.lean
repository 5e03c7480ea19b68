import KeypadCalculator.Proofs.Phrase.Completion

/-!
What the conversion to postfix order makes of a well-formed expression, and
what the evaluation makes of that: the post-order of the tree, and its value.
-/

namespace KeypadCalculator

namespace Phrase

/-- The tokens of a tree with every operator behind its operands. -/
def postorder : Phrase → List Token
  | literal digits _ => [.number digits]
  | group inner => inner.postorder
  | negation operand | opposite operand =>
    PrefixMinus.zeroLiteral :: (operand.postorder ++ [.operator .subtract])
  | binary op left right => left.postorder ++ (right.postorder ++ [.operator op])

theorem postorder_completed (tree : Phrase) : tree.completed.postorder = tree.postorder := by
  induction tree with
  | literal digits value => rfl
  | group inner ih => exact ih
  | negation operand ih => simp [completed, postorder, zero, PrefixMinus.zeroLiteral, ih]
  | opposite operand ih => simp [completed, postorder, zero, PrefixMinus.zeroLiteral, ih]
  | binary op left right ihLeft ihRight => simp [completed, postorder, ihLeft, ihRight]

theorem postorder_ne_nil (tree : Phrase) : tree.postorder ≠ [] := by
  induction tree with
  | literal digits value => simp [postorder]
  | group inner ih => exact ih
  | negation operand _ => simp [postorder]
  | opposite operand _ => simp [postorder]
  | binary op left right _ _ => simp [postorder]

/-- The pending operators next to a tree of a level bind less tightly than all
operators of the tree. -/
inductive Pends (level : Nat) : List Pending → Prop where
  | bottom : Pends level []
  | openParen (stack : List Pending) : Pends level (.openParen :: stack)
  | operator {op : Operator} (hOp : op.level < level) (stack : List Pending) :
      Pends level (.operator op :: stack)

theorem Pends.mono {level upper : Nat} {stack : List Pending} (h : Pends level stack)
    (hUpper : level ≤ upper) : Pends upper stack := by
  cases h with
  | bottom => exact .bottom
  | openParen stack => exact .openParen stack
  | operator hOp stack => exact .operator (Nat.lt_of_lt_of_le hOp hUpper) stack

theorem release_operator (op top : Operator) (stack : List Pending) :
    Pending.release op (.operator top :: stack) =
      if op.level ≤ top.level then
        (.operator top :: (Pending.release op stack).1, (Pending.release op stack).2)
      else ([], .operator top :: stack) := by
  rw [Pending.release, op.precedence_eq_level, top.precedence_eq_level]

/-- An operator that binds more tightly than the pending ones releases none. -/
theorem Pends.postfixFrom_operator {op : Operator} {stack : List Pending}
    (h : Pends op.level stack) (rest : List Token) :
    postfixFrom stack (.operator op :: rest) = postfixFrom (.operator op :: stack) rest := by
  cases h with
  | bottom => rfl
  | openParen stack => rfl
  | operator hTop stack =>
      rw [postfixFrom, release_operator, if_neg (Nat.not_le_of_lt hTop)]
      rfl

/-- An operator is released by whatever ends its right operand. -/
theorem Follows.postfixFrom_pending {op : Operator} {rest : List Token}
    (h : Follows op.level rest) (stack : List Pending) :
    postfixFrom (.operator op :: stack) rest = .operator op :: postfixFrom stack rest := by
  cases h with
  | finish => rfl
  | close rest => rfl
  | operator hOp rest =>
      rw [postfixFrom, release_operator, if_pos hOp]
      rfl

/-- The conversion writes a plain tree in post-order and leaves the pending
operators as they were. -/
theorem postfixFrom_tokens {level : Nat} {signed : Bool} {tree : Phrase}
    (h : Fits level signed tree) (hPlain : tree.Plain) {stack : List Pending}
    (hStack : Pends level stack) {rest : List Token} (hRest : Follows level rest) :
    postfixFrom stack (tree.tokens ++ rest) = tree.postorder ++ postfixFrom stack rest := by
  induction h generalizing stack rest with
  | @literal level signed digits value hValue =>
      have hSome : (Token.number digits).value?.isSome := by rw [hValue]; rfl
      simp [tokens, postorder, postfixFrom, hSome]
  | group _ ih =>
      have hClose : Follows 1 (.closeParen :: rest) := .close rest
      have hInner := ih hPlain (Pends.openParen stack) hClose
      simp [tokens, postorder, postfixFrom, hInner, Pending.releaseGroup]
  | negation _ _ => exact hPlain.elim
  | opposite _ _ => exact hPlain.elim
  | @binary level signed op left right hLevel _ _ ihLeft ihRight =>
      have hPends : Pends op.level stack := hStack.mono hLevel
      have hFollows : Follows op.level rest := hRest.mono hLevel
      rw [tokens, List.append_assoc, List.cons_append,
        ihLeft hPlain.1 hPends (.operator (Nat.le_refl _) _), hPends.postfixFrom_operator,
        ihRight hPlain.2 (.operator (Nat.lt_succ_self _) _) (hFollows.mono (Nat.le_succ _)),
        hFollows.postfixFrom_pending]
      simp [postorder]

theorem toPostfix_tokens {tree : Phrase} (h : Fits 1 false tree) (hPlain : tree.Plain) :
    toPostfix tree.tokens = tree.postorder := by
  have hTokens := postfixFrom_tokens h hPlain Pends.bottom (.finish : Follows 1 [])
  simpa [toPostfix, postfixFrom, Pending.releaseAll] using hTokens

/-- On two operands an operator is its arithmetic, and what lies below stays. -/
theorem operandStep_operator (op : Operator) (a b : Binary64) (operands : List Binary64) :
    operandStep (b :: a :: operands) (.operator op) =
      (op.apply a b).map (· :: operands) := by
  cases op with
  | divide =>
      change Operator.apply .divide a b >>= (fun value => pure (value :: operands)) = _
      cases Operator.apply .divide a b <;> rfl
  | modulo =>
      change Operator.apply .modulo a b >>= (fun value => pure (value :: operands)) = _
      cases Operator.apply .modulo a b <;> rfl
  | _ => rfl

/-- What puts one value on top of the operands, what puts another there, and an
operator behind them, put the value of the operation there. -/
theorem bind_operandStep {first second : List Binary64 → Except Fault (List Binary64)}
    {a b : Except Fault Binary64} (hFirst : ∀ operands, first operands = a.map (· :: operands))
    (hSecond : ∀ operands, second operands = b.map (· :: operands)) (op : Operator)
    (operands : List Binary64) :
    (first operands >>= fun below => second below >>= fun above =>
        operandStep above (.operator op)) =
      (a >>= fun x => b >>= fun y => op.apply x y).map (· :: operands) := by
  simp only [hFirst, hSecond]
  cases a with
  | error fault => rfl
  | ok x =>
      cases b with
      | error fault => rfl
      | ok y => exact operandStep_operator op x y operands

/-- Two operands and the operator behind them leave the value of the operation
in place of the operands. -/
theorem foldlM_binary {left right : List Token} {a b : Except Fault Binary64}
    (hLeft : ∀ operands, left.foldlM operandStep operands = a.map (· :: operands))
    (hRight : ∀ operands, right.foldlM operandStep operands = b.map (· :: operands))
    (op : Operator) (operands : List Binary64) :
    (left ++ (right ++ [Token.operator op])).foldlM operandStep operands =
      (a >>= fun x => b >>= fun y => op.apply x y).map (· :: operands) := by
  simp only [List.foldlM_append, List.foldlM_cons, List.foldlM_nil, bind_pure]
  exact bind_operandStep hLeft hRight op operands

theorem foldlM_literal {digits : List Char} {value : Binary64}
    (hValue : (Token.number digits).value? = some value) (operands : List Binary64) :
    [Token.number digits].foldlM operandStep operands =
      (Except.ok value).map (· :: operands) := by
  rw [List.foldlM_cons, operandStep, hValue]
  rfl

/-- The post-order of a tree puts its value on top of the operands, or fails
with its fault. -/
theorem foldlM_postorder {level : Nat} {signed : Bool} {tree : Phrase}
    (h : Fits level signed tree) (operands : List Binary64) :
    tree.postorder.foldlM operandStep operands = tree.value.map (· :: operands) := by
  have hZero := foldlM_literal value?_zeroLiteral
  induction h generalizing operands with
  | literal hValue => exact foldlM_literal hValue operands
  | group _ ih => exact ih operands
  | negation _ ih => exact foldlM_binary hZero ih .subtract operands
  | opposite _ ih => exact foldlM_binary hZero ih .subtract operands
  | binary _ _ _ ihLeft ihRight => exact foldlM_binary ihLeft ihRight _ operands

/-- The postfix order of a well-formed row of tokens is the post-order of its
tree. -/
theorem toPostfix_complete_tokens {tree : Phrase} (h : Fits 1 false tree) :
    toPostfix (PrefixMinus.complete tree.tokens) = tree.postorder := by
  rw [PrefixMinus.complete_tokens h, toPostfix_tokens (h.completed false) (plain_completed tree),
    postorder_completed]

/-- What leaves the value of a tree as the only operand comes to the outcome of the
tree. -/
theorem evaluatePostfix_of_foldlM {tokens : List Token} {tree : Phrase}
    (h : tokens.foldlM operandStep [] = tree.value.map (· :: [])) :
    evaluatePostfix tokens = tree.outcome := by
  rw [evaluatePostfix, h, outcome]
  cases tree.value <;> rfl

/-- A well-formed row of tokens evaluates to the outcome of its tree. -/
theorem evaluateTokens_tokens {tree : Phrase} (h : Fits 1 false tree) :
    evaluateTokens tree.tokens = tree.outcome := by
  rw [evaluateTokens, toPostfix_complete_tokens h]
  simp only [List.isEmpty_eq_false_iff.mpr (postorder_ne_nil tree)]
  exact evaluatePostfix_of_foldlM (foldlM_postorder h [])

end Phrase

end KeypadCalculator
