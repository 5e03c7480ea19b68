import KeypadCalculator.Proofs.Phrase.Arithmetic
import KeypadCalculator.Proofs.Phrase.Grammar

/-!
Evaluation by recursive descent: the value of an expression straight from its
tokens, with one reader for each level of operators and neither a reordering of
the tokens nor a stack.
-/

namespace KeypadCalculator

namespace Descent

/-- What a reader makes of the tokens in front of it. Nothing means that they
are not in the grammar. -/
abbrev Reading (α : Type) := ExceptT Fault Option α

namespace Reading

def malformed {α : Type} : Reading α := ExceptT.mk none

/-- A reading that ends with a value or with a fault. -/
def ofOutcome {α : Type} (outcome : Except Fault α) : Reading α :=
  ExceptT.mk (some outcome)

end Reading

open Reading

/-- The arithmetic of one operator between two numbers. -/
def operate (a b : Binary64) (op : Operator) : Except Fault Binary64 :=
  match if b.isNought then op.zeroFault? else none with
  | some fault => .error fault
  | none => .ok (op.compute a b)

/-- A reading that took at least one of the tokens. A phrase always does. It is checked
for, so that the descent ends whatever the tokens are. -/
def took (tokens : List Token) (read : Binary64 × List Token) :
    Reading (Binary64 × { rest : List Token // rest.length < tokens.length }) :=
  if h : read.2.length < tokens.length then pure (read.1, ⟨read.2, h⟩) else malformed

mutual

/-- The value of the longest phrase at the front that has no operator below
`level` outside of parentheses, and the tokens behind it. At the lowest level a
minus sign in front subtracts the first term from zero. -/
def phrase (level : Nat) (signed : Bool) (tokens : List Token) :
    Reading (Binary64 × List Token) :=
  match level, tokens with
  | 1, .operator .subtract :: rest => do
    let (b, rest) ← took rest (← phrase 2 true rest)
    more 1 (Binary64.zero.sub b) rest
  | level, tokens =>
    if 4 ≤ level then operand signed tokens
    else do
      let (a, rest) ← took tokens (← phrase (level + 1) signed tokens)
      more level a rest
termination_by (tokens.length, 5 - level + 1)

/-- The value that `a` comes to with the operators of one level behind it. -/
def more (level : Nat) (a : Binary64) (tokens : List Token) :
    Reading (Binary64 × List Token) :=
  match tokens with
  | .operator op :: rest =>
    if op.level = level then do
      let (b, rest) ← took rest (← phrase (level + 1) (op != .percent) rest)
      let c ← ofOutcome (operate a b op)
      more level c rest
    else pure (a, tokens)
  | _ => pure (a, tokens)
termination_by (tokens.length, 0)

/-- The value of a literal, of a group, or, where it may be signed, of an
operand behind a minus sign. -/
def operand (signed : Bool) (tokens : List Token) : Reading (Binary64 × List Token) :=
  match tokens with
  | .number digits :: rest => match Binary64.leading? digits with
    | some value => pure (value, rest)
    | none => malformed
  | .openParen :: rest => do
    match ← phrase 1 false rest with
    | (value, .closeParen :: rest) => pure (value, rest)
    | _ => malformed
  | .operator .subtract :: rest =>
    if signed then do
      let (value, rest) ← operand true rest
      pure (Binary64.zero.sub value, rest)
    else malformed
  | _ => malformed
termination_by (tokens.length, 0)

end

/-- The value of a whole row of tokens. It has to be finite, whatever became of
the numbers on the way. -/
def run (tokens : List Token) : Reading Binary64 := do
  match ← phrase 1 false tokens with
  | (value, []) => ofOutcome (if value.isFinite then .ok value else .error .notFinite)
  | _ => malformed

theorem operate_eq_apply (a b : Binary64) (op : Operator) : operate a b op = op.apply a b :=
  (op.apply_eq_compute a b).symm

theorem ofOutcome_bind {α β : Type} (outcome : Except Fault α) (next : α → Except Fault β) :
    ofOutcome (outcome >>= next) = ofOutcome outcome >>= fun value => ofOutcome (next value) := by
  cases outcome <;> rfl

@[simp] theorem ofOutcome_ok {α : Type} (value : α) :
    ofOutcome (.ok value) = (pure value : Reading α) := rfl

theorem took_of_lt {tokens rest : List Token} (h : rest.length < tokens.length)
    (value : Binary64) : took tokens (value, rest) = pure (value, ⟨rest, h⟩) :=
  dif_pos h

/-- A tree takes tokens. -/
theorem length_lt_tokens (tree : Phrase) (rest : List Token) :
    rest.length < (tree.tokens ++ rest).length := by
  cases tree <;> simp [Phrase.tokens] <;> omega

/-- No operator stands at the level of operands. -/
theorem more_four (a : Binary64) (rest : List Token) : more 4 a rest = pure (a, rest) := by
  rw [more.eq_def]
  split
  · rename_i op rest
    rw [if_neg (by cases op <;> decide)]
  · rfl

/-- An operator that binds less tightly ends the phrases of a level. -/
theorem more_of_follows {level : Nat} {rest : List Token} (h : Phrase.Follows level rest)
    (a : Binary64) : more (level + 1) a rest = pure (a, rest) := by
  cases h with
  | finish => rw [more.eq_def]
  | close rest => rw [more.eq_def]
  | @operator op hOp rest =>
      have hOther : op.level ≠ level + 1 := Nat.ne_of_lt (Nat.lt_succ_of_le hOp)
      rw [more.eq_def]
      simp only [if_neg hOther]

/-- A phrase that is read at one level is read at the level below as well. -/
theorem phrase_of_succ {level : Nat} {signed : Bool} {tokens rest : List Token}
    {outcome : Except Fault Binary64} (hLevel : level < 4)
    (hFront : level = 1 → tokens.head? ≠ some (.operator .subtract))
    (hRest : Phrase.Follows level rest) (hShort : rest.length < tokens.length)
    (h : phrase (level + 1) signed tokens =
      ofOutcome outcome >>= fun value => more (level + 1) value rest) :
    phrase level signed tokens = ofOutcome outcome >>= fun value => more level value rest := by
  have hPhrase : phrase level signed tokens =
      phrase (level + 1) signed tokens >>= fun read =>
        took tokens read >>= fun read => more level read.1 read.2 := by
    rw [phrase.eq_def]
    split
    · exact absurd rfl (hFront rfl)
    · rw [if_neg (Nat.not_le_of_lt hLevel)]
  simp only [hPhrase, h, more_of_follows hRest, took_of_lt hShort, bind_assoc, pure_bind]

theorem phrase_of_le {level upper : Nat} {signed : Bool} {tokens rest : List Token}
    {outcome : Except Fault Binary64} (hLevel : level ≤ upper) (hUpper : upper ≤ 4)
    (hPositive : 1 ≤ level)
    (hFront : level = 1 → 1 < upper → tokens.head? ≠ some (.operator .subtract))
    (hRest : Phrase.Follows level rest) (hShort : rest.length < tokens.length)
    (h : phrase upper signed tokens =
      ofOutcome outcome >>= fun value => more upper value rest) :
    phrase level signed tokens = ofOutcome outcome >>= fun value => more level value rest := by
  induction hLevel with
  | refl => exact h
  | @step middle hMiddle ih =>
      refine ih (Nat.le_of_succ_le hUpper)
        (fun hOne hMore => hFront hOne (Nat.lt_succ_of_lt hMore))
        (phrase_of_succ hUpper ?_ (hRest.mono hMiddle) hShort h)
      rintro rfl
      exact hFront (Nat.le_antisymm hMiddle hPositive) (by decide)

/-- An operator of the level takes the operand behind it. -/
theorem more_operator (a : Binary64) (op : Operator) (rest : List Token) :
    more op.level a (.operator op :: rest) =
      phrase (op.level + 1) (op != .percent) rest >>= fun read =>
        took rest read >>= fun read =>
          ofOutcome (op.apply a read.1) >>= fun c => more op.level c read.2 := by
  rw [more.eq_def]
  simp only [if_pos, operate_eq_apply]

theorem phrase_four (signed : Bool) (tokens : List Token) :
    phrase 4 signed tokens = operand signed tokens := by
  rw [phrase.eq_def]
  rfl

/-- An operand that is read alone is a phrase of every level. -/
theorem phrase_of_operand {level : Nat} {signed : Bool} {tokens rest : List Token}
    {outcome : Except Fault Binary64} (hLevel : level ≤ 4) (hPositive : 1 ≤ level)
    (hFront : level = 1 → tokens.head? ≠ some (.operator .subtract))
    (hRest : Phrase.Follows level rest) (hShort : rest.length < tokens.length)
    (h : operand signed tokens = ofOutcome outcome >>= fun value => pure (value, rest)) :
    phrase level signed tokens = ofOutcome outcome >>= fun value => more level value rest := by
  refine phrase_of_le hLevel (Nat.le_refl 4) hPositive (fun hOne _ => hFront hOne) hRest hShort ?_
  simp only [phrase_four, h, more_four]

/-- The reader of a level takes exactly the tokens of a tree of that level, and
goes on from its value with the operators of the level behind it. -/
theorem phrase_tokens {level : Nat} {signed : Bool} {tree : Phrase}
    (h : Phrase.Fits level signed tree) (hPositive : 1 ≤ level) (hLevel : level ≤ 4)
    (hSigned : level = 1 → signed = false) {rest : List Token}
    (hRest : Phrase.Follows level rest) :
    phrase level signed (tree.tokens ++ rest) =
      ofOutcome tree.value >>= fun value => more level value rest := by
  induction h generalizing rest with
  | @literal level signed digits value hValue =>
      have hDigits : Binary64.leading? digits = some value := hValue
      refine phrase_of_operand hLevel hPositive (by simp [Phrase.tokens]) hRest
        (length_lt_tokens _ rest) ?_
      rw [operand.eq_def]
      simp [Phrase.tokens, Phrase.value, hDigits]
  | @group level signed inner _ ih =>
      have hInner := ih (Nat.le_refl 1) (by decide) (fun _ => rfl)
        (.close rest : Phrase.Follows 1 (.closeParen :: rest))
      have hClose : Phrase.Follows 0 (.closeParen :: rest) := .close rest
      refine phrase_of_operand hLevel hPositive (by simp [Phrase.tokens]) hRest
        (length_lt_tokens _ rest) ?_
      rw [operand.eq_def]
      simp only [Phrase.tokens, Phrase.value, List.cons_append, List.append_assoc,
        List.nil_append, hInner, more_of_follows hClose, bind_assoc, pure_bind]
  | @negation level negated _ ih =>
      have hOperand := ih (by decide) (Nat.le_refl 4) (by decide) (hRest.mono hLevel)
      simp only [phrase_four, more_four] at hOperand
      refine phrase_of_operand hLevel hPositive
        (fun hOne => absurd (hSigned hOne) (by decide)) hRest (length_lt_tokens _ rest) ?_
      rw [operand.eq_def]
      simp only [Phrase.tokens, Phrase.value, List.cons_append, if_pos, hOperand,
        ofOutcome_bind, bind_assoc, pure_bind]
      rfl
  | @opposite operand _ ih =>
      have hOperand := ih (by decide) (by decide) (by decide) (hRest.mono (by decide))
      rw [phrase.eq_def]
      simp only [Phrase.tokens, Phrase.value, List.cons_append, hOperand,
        more_of_follows hRest, took_of_lt (length_lt_tokens operand rest), ofOutcome_bind,
        bind_assoc, pure_bind]
      rfl
  | @binary level signed op left right hTop hLeft hRight ihLeft ihRight =>
      have hOp : op.level < 4 := by cases op <;> decide
      have hOne := Phrase.one_le_level op
      have hFollows : Phrase.Follows op.level rest := hRest.mono hTop
      have hLeftSigned : op.level = 1 → signed = false := fun hTopOne =>
        hSigned (Nat.le_antisymm (hTopOne ▸ hTop) hPositive)
      have hLeftPhrase := ihLeft hOne (Nat.le_of_lt hOp) hLeftSigned
        (Phrase.Follows.operator (Nat.le_refl _) (right.tokens ++ rest))
      have hRightPhrase := ihRight (Nat.le_add_left 1 _) hOp
        (fun hZero => absurd (Nat.succ.inj hZero) (Nat.ne_of_gt hOne))
        (hFollows.mono (Nat.le_succ _))
      refine phrase_of_le hTop (Nat.le_of_lt hOp) hPositive ?_ hRest (length_lt_tokens _ rest) ?_
      · intro hLevelOne hTight
        rw [Phrase.tokens, List.append_assoc]
        exact (hSigned hLevelOne ▸ hLeft).head_ne_subtract hTight _
      · simp only [Phrase.tokens, Phrase.value, List.append_assoc, List.cons_append,
          hLeftPhrase, more_operator, hRightPhrase, more_of_follows hFollows,
          took_of_lt (length_lt_tokens right rest), ofOutcome_bind, bind_assoc, pure_bind]

/-- Recursive descent accepts every well-formed row of tokens, and comes to the
value of its tree. -/
theorem run_tokens {tree : Phrase} (h : Phrase.Fits 1 false tree) :
    run tree.tokens = ofOutcome tree.outcome := by
  have hTree := phrase_tokens h (Nat.le_refl 1) (by decide) (fun _ => rfl)
    (.finish : Phrase.Follows 1 [])
  rw [List.append_nil] at hTree
  simp only [run, hTree, more_of_follows (.finish : Phrase.Follows 0 []), Phrase.outcome,
    ofOutcome_bind, bind_assoc, pure_bind]

end Descent

end KeypadCalculator
