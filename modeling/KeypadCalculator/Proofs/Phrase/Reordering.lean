import KeypadCalculator.Proofs.Phrase.OperandCount
import KeypadCalculator.Proofs.Token.Literal
import KeypadCalculator.Proofs.Token.RoundTrip

/-!
The conversion to postfix order, on every row of tokens: it keeps the literals that
have a value in their order, permutes the operators, and writes no parenthesis. On a
row that alternates and balances it writes the post-order of its tree, and there is
only one tree to read it as.
-/

namespace KeypadCalculator

theorem Pending.filter_isNumber_released {released : List Token} {kept stack : List Pending}
    (h : released ++ Pending.releaseAll kept = Pending.releaseAll stack) :
    released.filter Token.isNumber = [] := by
  rw [List.filter_eq_nil_iff]
  intro token hMem
  obtain ⟨op, rfl⟩ :=
    Pending.exists_operator_of_mem_releaseAll (h ▸ List.mem_append_left _ hMem)
  simp [Token.isNumber]

theorem Pending.filter_isNumber_releaseAll (stack : List Pending) :
    (Pending.releaseAll stack).filter Token.isNumber = [] := by
  have hAll : Pending.releaseAll stack ++ Pending.releaseAll [] = Pending.releaseAll stack :=
    List.append_nil _
  exact filter_isNumber_released hAll

/-- Operators wait on the stack, literals do not. -/
theorem filter_isNumber_postfixFrom (stack : List Pending) (tokens : List Token) :
    (postfixFrom stack tokens).filter Token.isNumber = tokens.filter (·.value?.isSome) := by
  induction tokens generalizing stack with
  | nil => exact Pending.filter_isNumber_releaseAll stack
  | cons token tokens ih =>
      cases token with
      | number digits =>
          rw [postfixFrom, List.filter_cons]
          split
          · rw [List.filter_cons_of_pos rfl, ih]
          · exact ih stack
      | operator op =>
          rw [postfixFrom, List.filter_append, ih,
            Pending.filter_isNumber_released (Pending.release_append_releaseAll op stack)]
          rfl
      | openParen => exact ih (.openParen :: stack)
      | closeParen =>
          rw [postfixFrom, List.filter_append, ih,
            Pending.filter_isNumber_released (Pending.releaseGroup_append_releaseAll stack)]
          rfl

theorem filter_isOperator_toPostfix_perm (tokens : List Token) :
    ((toPostfix tokens).filter Token.isOperator).Perm (tokens.filter Token.isOperator) := by
  have hPerm := (toPostfix_perm tokens).filter Token.isOperator
  rw [List.filter_filter] at hPerm
  have hOrdered : (fun token : Token => token.isOperator && token.isOrdered) =
      Token.isOperator := by
    funext token
    rw [Token.isOrdered, Bool.and_or_distrib_left, Bool.and_self]
    cases token.isOperator <;> simp
  rwa [hOrdered] at hPerm

theorem not_mem_toPostfix_of_isOrdered {token : Token} (h : token.isOrdered = false)
    (tokens : List Token) : token ∉ toPostfix tokens := by
  intro hMem
  have hKept := (List.mem_filter.mp ((toPostfix_perm tokens).mem_iff.mp hMem)).2
  rw [h] at hKept
  cases hKept

/-- The rows in which every operator stands between two operands: these are literals
with a value, or rows of the same form in parentheses. A single operand is a row. -/
inductive Alternates : (single : Bool) → List Token → Prop where
  | literal {digits : List Char} (hValue : (Token.number digits).value?.isSome) :
      Alternates true [.number digits]
  | group {inner : List Token} (hInner : Alternates false inner) :
      Alternates true (.openParen :: (inner ++ [.closeParen]))
  | operand {operand : List Token} (hOperand : Alternates true operand) :
      Alternates false operand
  | binary {left right : List Token} (op : Operator) (hLeft : Alternates false left)
      (hRight : Alternates true right) : Alternates false (left ++ .operator op :: right)

namespace Phrase

/-- The tree groups a row by the levels of its operators, from the left to the right
within one level. -/
structure Parses (tree : Phrase) (tokens : List Token) : Prop where
  fits : Fits 1 false tree
  plain : tree.Plain
  tokens_eq : tree.tokens = tokens

theorem Plain.extend {tree right : Phrase} (h : tree.Plain) (hRight : right.Plain)
    (op : Operator) : (extend op right tree).Plain := by
  induction tree with
  | literal digits value => exact ⟨trivial, hRight⟩
  | group inner _ => exact ⟨h, hRight⟩
  | negation operand _ => exact h.elim
  | opposite operand _ => exact h.elim
  | binary top left inner _ ihInner =>
      rw [Phrase.extend]
      split
      · exact ⟨h.1, ihInner h.2⟩
      · exact ⟨h, hRight⟩

theorem exists_parses_of_alternates {single : Bool} {tokens : List Token}
    (h : Alternates single tokens) :
    ∃ tree : Phrase, tree.Plain ∧ tree.tokens = tokens ∧
      ∀ signed, Fits (if single then 4 else 1) signed tree := by
  induction h with
  | @literal digits hValue =>
      obtain ⟨value, hValue⟩ := Option.isSome_iff_exists.mp hValue
      exact ⟨.literal digits value, trivial, rfl, fun _ => .literal hValue⟩
  | group _ ih =>
      obtain ⟨inner, hPlain, rfl, hInner⟩ := ih
      exact ⟨.group inner, hPlain, rfl, fun _ => .group (hInner false)⟩
  | operand _ ih =>
      obtain ⟨operand, hPlain, rfl, hOperand⟩ := ih
      exact ⟨operand, hPlain, rfl, fun signed => (hOperand signed).mono (by decide) (by decide)⟩
  | binary op _ _ ihLeft ihRight =>
      obtain ⟨tree, hPlain, rfl, hTree⟩ := ihLeft
      obtain ⟨operand, hOther, rfl, hOperand⟩ := ihRight
      exact ⟨extend op operand tree, hPlain.extend hOther op, tokens_extend op operand tree,
        fun signed => (hTree signed).extend (one_le_level op) (hOperand _)⟩

/-- What is open on the left of the next operand: an operator with its left operand,
or a parenthesis. -/
inductive Opened where
  | operator (op : Operator) (left : Phrase)
  | openParen

def Opened.pending : Opened → Pending
  | .operator op _ => .operator op
  | .openParen => .openParen

/-- The operand with all open operators of a level and above applied to it, and what is
open in front of that. -/
def attach (level : Nat) (operand : Phrase) : List Opened → Phrase × List Opened
  | .operator top left :: stack =>
    if level ≤ top.level then attach level (.binary top left operand) stack
    else (operand, .operator top left :: stack)
  | stack => (operand, stack)

/-- The tree of the tokens that follow, where `operand` is what was read of it since
the last open operator or parenthesis. -/
def read (stack : List Opened) : Option Phrase → List Token → Option Phrase
  | none, .number digits :: rest =>
    (Token.number digits).value?.bind fun value => read stack (some (.literal digits value)) rest
  | none, .openParen :: rest => read (.openParen :: stack) none rest
  | some operand, .operator op :: rest =>
    let (left, kept) := attach op.level operand stack
    read (.operator op left :: kept) none rest
  | some operand, .closeParen :: rest => match attach 0 operand stack with
    | (inner, .openParen :: kept) => read kept (some (.group inner)) rest
    | _ => none
  | some operand, [] => match attach 0 operand stack with
    | (tree, []) => some tree
    | _ => none
  | _, _ => none

/-- An operator that binds more tightly than the open ones leaves them open. -/
theorem attach_of_pends {op : Operator} {stack : List Opened}
    (h : Pends op.level (stack.map Opened.pending)) (operand : Phrase) :
    attach op.level operand stack = (operand, stack) := by
  cases stack with
  | nil => rfl
  | cons top stack =>
      cases top with
      | openParen => rfl
      | operator top left =>
          cases h with
          | operator hTop => rw [attach, if_neg (Nat.not_le_of_lt hTop)]

/-- An open operator is applied by whatever ends its right operand. -/
theorem Follows.read_binary {op : Operator} {rest : List Token}
    (h : Follows op.level rest) (left right : Phrase) (stack : List Opened) :
    read (.operator op left :: stack) (some right) rest =
      read stack (some (.binary op left right)) rest := by
  cases h with
  | finish => simp [read, attach]
  | close rest => simp [read, attach]
  | operator hOp rest => simp [read, attach, hOp]

/-- Reading comes behind the tokens of a plain tree with just that tree. -/
theorem read_tokens {level : Nat} {signed : Bool} {tree : Phrase} (h : Fits level signed tree)
    (hPlain : tree.Plain) {stack : List Opened}
    (hStack : Pends level (stack.map Opened.pending)) {rest : List Token}
    (hRest : Follows level rest) :
    read stack none (tree.tokens ++ rest) = read stack (some tree) rest := by
  induction h generalizing stack rest with
  | literal hValue => simp [tokens, read, hValue]
  | @group level signed inner _ ih =>
      have hInner := @ih hPlain (.openParen :: stack) (.openParen _) (.closeParen :: rest)
        (.close rest)
      simp [tokens, read, hInner, attach]
  | negation _ _ => exact hPlain.elim
  | opposite _ _ => exact hPlain.elim
  | @binary level signed op left right hLevel _ _ ihLeft ihRight =>
      have hPends : Pends op.level (stack.map Opened.pending) := hStack.mono hLevel
      have hFollows : Follows op.level rest := hRest.mono hLevel
      calc read stack none ((binary op left right).tokens ++ rest)
          = read stack none (left.tokens ++ (.operator op :: (right.tokens ++ rest))) := by
            rw [tokens, List.append_assoc, List.cons_append]
        _ = read stack (some left) (.operator op :: (right.tokens ++ rest)) :=
            ihLeft hPlain.1 hPends (.operator (Nat.le_refl _) _)
        _ = read (.operator op left :: stack) none (right.tokens ++ rest) := by
            rw [read, attach_of_pends hPends]
        _ = read (.operator op left :: stack) (some right) rest :=
            ihRight hPlain.2 (.operator (Nat.lt_succ_self _) _) (hFollows.mono (Nat.le_succ _))
        _ = read stack (some (binary op left right)) rest := hFollows.read_binary left right stack

/-- No row is the row of two trees. -/
theorem Parses.unique {tree other : Phrase} {tokens : List Token} (h : tree.Parses tokens)
    (hOther : other.Parses tokens) : tree = other := by
  have hRead {tree : Phrase} (h : tree.Parses tokens) : read [] none tokens = some tree := by
    have hTokens : read [] none (tree.tokens ++ []) = read [] (some tree) [] :=
      read_tokens h.fits h.plain .bottom .finish
    rwa [List.append_nil, h.tokens_eq] at hTokens
  exact Option.some.inj ((hRead h).symm.trans (hRead hOther))

end Phrase

/-- The conversion loses nothing and invents nothing: whatever the row is, its postfix
order has no parenthesis, the literals with a value in their order, and the same
operators. A row that alternates has exactly one tree, and its postfix order is the
post-order of that. -/
theorem toPostfix_conserves (tokens : List Token) :
    (.openParen ∉ toPostfix tokens ∧ .closeParen ∉ toPostfix tokens ∧
        (toPostfix tokens).filter Token.isNumber = tokens.filter (·.value?.isSome) ∧
        ((toPostfix tokens).filter Token.isOperator).Perm (tokens.filter Token.isOperator)) ∧
      (Alternates false tokens → (∃! tree : Phrase, tree.Parses tokens) ∧
        ∀ tree : Phrase, tree.Parses tokens → toPostfix tokens = tree.postorder) := by
  refine ⟨⟨not_mem_toPostfix_of_isOrdered rfl tokens, not_mem_toPostfix_of_isOrdered rfl tokens,
    filter_isNumber_postfixFrom [] tokens, filter_isOperator_toPostfix_perm tokens⟩,
    fun hAlternates => ⟨?_, fun tree hTree => ?_⟩⟩
  · obtain ⟨tree, hPlain, hTokens, hFits⟩ := Phrase.exists_parses_of_alternates hAlternates
    have hTree : tree.Parses tokens := ⟨hFits false, hPlain, hTokens⟩
    exact ⟨tree, hTree, fun other hOther => hOther.unique hTree⟩
  · rw [← hTree.tokens_eq]
    exact Phrase.toPostfix_tokens hTree.fits hTree.plain

/-- In `8-4-(2mod5%3)` the second minus sign takes the difference in front of it, and the
percent sign the remainder. -/
theorem toPostfix_conserves_group :
    let tokens := Token.ofText "8-4-(2mod5%3)".toList
    Alternates false tokens ∧ (∃! tree : Phrase, tree.Parses tokens) ∧
      toPostfix tokens = [.number ['8'], .number ['4'], .operator .subtract, .number ['2'],
        .number ['5'], .operator .modulo, .number ['3'], .operator .percent,
        .operator .subtract] := by
  intro tokens
  have hLiteral (c : Char) (hDigit : Text.isAsciiDigit c = true) :
      Alternates true [.number [c]] :=
    .literal (value?_isSome_of_digit hDigit (by simp [IsLiteralChar, hDigit]))
  have hGroup : Alternates false (([Token.number ['2']] ++
      Token.operator .modulo :: [Token.number ['5']]) ++
        Token.operator .percent :: [Token.number ['3']]) :=
    .binary .percent (.binary .modulo (.operand (hLiteral '2' (by decide)))
      (hLiteral '5' (by decide))) (hLiteral '3' (by decide))
  have hTokens : tokens = ([Token.number ['8']] ++ Token.operator .subtract ::
      [Token.number ['4']]) ++ Token.operator .subtract :: (Token.openParen ::
        ((([Token.number ['2']] ++ Token.operator .modulo :: [Token.number ['5']]) ++
          Token.operator .percent :: [Token.number ['3']]) ++ [Token.closeParen])) := by decide
  have hAlternates : Alternates false tokens := by
    rw [hTokens]
    exact .binary .subtract (.binary .subtract (.operand (hLiteral '8' (by decide)))
      (hLiteral '4' (by decide))) (.group hGroup)
  exact ⟨hAlternates, ((toPostfix_conserves tokens).2 hAlternates).1, by decide⟩

end KeypadCalculator
