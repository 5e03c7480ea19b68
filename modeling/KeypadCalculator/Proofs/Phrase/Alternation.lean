import KeypadCalculator.Proofs.Phrase.Completion

/-!
Rows of tokens in which operands and operators take turns, whether or not the
parentheses balance, and what the pass over the minus signs makes of them.
-/

namespace KeypadCalculator

/-- What stands in front of the next token. Behind the percent sign an operand
has to follow, and it is not signed. -/
inductive Position where
  | start
  | operator
  | percent
  | ended
  deriving DecidableEq, Repr

namespace Position

/-- The position behind a token that may stand at a position. -/
def next? : Position → Token → Option Position
  | .ended, .operator op => some (if op = .percent then .percent else .operator)
  | .ended, .closeParen => some .ended
  | .ended, _ => none
  | _, .number digits => if (Token.number digits).value?.isSome then some .ended else none
  | _, .openParen => some .start
  | _, .closeParen => none
  | .percent, .operator _ => none
  | _, .operator op => if op = .subtract then some .operator else none

theorem next?_number {p q : Position} {digits : List Char}
    (h : p.next? (.number digits) = some q) :
    p ≠ .ended ∧ q = .ended ∧ (Token.number digits).value?.isSome := by
  cases p <;> grind [next?]

theorem next?_openParen {p q : Position} (h : p.next? .openParen = some q) :
    p ≠ .ended ∧ q = .start := by
  cases p <;> grind [next?]

theorem next?_closeParen {p q : Position} (h : p.next? .closeParen = some q) :
    p = .ended ∧ q = .ended := by
  cases p <;> simp_all [next?]

/-- An operator stands behind an operand; only a minus sign also at the start or
behind an operator, and not behind the percent sign. -/
theorem next?_operator {p q : Position} {op : Operator}
    (h : p.next? (.operator op) = some q) :
    p = .ended ∧ q = (if op = .percent then .percent else .operator) ∨
      (p = .start ∨ p = .operator) ∧ op = .subtract ∧ q = .operator := by
  cases p <;> simp_all [next?]

end Position

/-- Whether an operand has ended, after one more token of a row in which every
operator stands between two operands. -/
def takesTurn : Bool → Token → Option Bool
  | false, .number digits => if (Token.number digits).value?.isSome then some true else none
  | false, .openParen => some false
  | true, .operator _ => some false
  | true, .closeParen => some true
  | _, _ => none

namespace PrefixMinus

/-- The last of the tokens so far puts the row at this position. -/
def EndsAt : Position → List Token → Prop
  | .start, done => done = [] ∨ ∃ rest, done = .openParen :: rest
  | .operator, done => ∃ op rest, op ≠ .percent ∧ done = .operator op :: rest
  | .percent, done => ∃ rest, done = .operator .percent :: rest
  | .ended, done => ∃ last rest, Phrase.EndsOperand last ∧ done = last :: rest

/-- The tokens so far take turns without any sign, up to the position. -/
structure Tracks (p : Position) (done : List Token) : Prop where
  turns : done.reverse.foldlM takesTurn false = some (p == .ended)
  last : EndsAt p done

theorem foldlM_reverse_cons {ended : Bool} {done : List Token}
    (h : done.reverse.foldlM takesTurn false = some ended) (token : Token) :
    (token :: done).reverse.foldlM takesTurn false = takesTurn ended token := by
  rw [List.reverse_cons, List.foldlM_append, h]
  simp

/-- Closing negations keeps an operand at the end. -/
theorem Tracks.close {done : List Token} (h : Tracks .ended done) (depth : Nat)
    (waiting : List Nat) : Tracks .ended (PrefixMinus.close done depth waiting).done := by
  induction waiting generalizing done depth with
  | nil => exact h
  | cons d waiting ih =>
      rw [PrefixMinus.close]
      split
      · refine ih ⟨?_, .closeParen, done, trivial, rfl⟩ (depth - 1)
        rw [foldlM_reverse_cons h.turns]
        rfl
      · exact h

/-- A sign is given a zero to subtract from. -/
theorem Tracks.sign {done : List Token}
    (h : done.reverse.foldlM takesTurn false = some false) :
    Tracks .operator (.operator .subtract :: zeroLiteral :: done) := by
  have hZero : takesTurn false zeroLiteral = some true := by
    rw [zeroLiteral, takesTurn, ← zeroLiteral, Phrase.value?_zeroLiteral]
    rfl
  refine ⟨?_, .subtract, _, by decide, rfl⟩
  rw [foldlM_reverse_cons ((foldlM_reverse_cons h zeroLiteral).trans hZero)]
  rfl

/-- An operator behind an operand is taken over as it is. -/
theorem Tracks.step_operator {done : List Token} (h : Tracks .ended done) (depth : Nat)
    (waiting : List Nat) (op : Operator) :
    Tracks (if op = .percent then .percent else .operator)
      (PrefixMinus.step ⟨done, depth, waiting⟩ (.operator op)).done := by
  obtain ⟨hTurns, last, rest, hLast, rfl⟩ := h
  rw [PrefixMinus.step_operator hLast]
  have hRow : (Token.operator op :: last :: rest).reverse.foldlM takesTurn false =
      some false := by
    rw [foldlM_reverse_cons hTurns]
    rfl
  split
  · rename_i hPercent
    exact ⟨hRow, last :: rest, by rw [hPercent]⟩
  · rename_i hOp
    exact ⟨hRow, op, last :: rest, hOp, rfl⟩

/-- One more token that may stand at the position moves the completed row to the
next position. -/
theorem Tracks.step {p q : Position} {s : PrefixMinus} {token : Token}
    (h : Tracks p s.done) (hNext : p.next? token = some q) : Tracks q (s.step token).done := by
  obtain ⟨done, depth, waiting⟩ := s
  have hTurns := h.turns
  have hLast := h.last
  cases token with
  | number digits =>
      obtain ⟨hOpen, rfl, hValue⟩ := Position.next?_number hNext
      have hEnded : (p == .ended) = false := by simpa using hOpen
      refine Tracks.close ⟨?_, .number digits, done, trivial, rfl⟩ depth waiting
      rw [foldlM_reverse_cons hTurns, hEnded, takesTurn, if_pos hValue]
      rfl
  | openParen =>
      obtain ⟨hOpen, rfl⟩ := Position.next?_openParen hNext
      have hEnded : (p == .ended) = false := by simpa using hOpen
      refine ⟨?_, .inr ⟨done, rfl⟩⟩
      rw [PrefixMinus.step, foldlM_reverse_cons hTurns, hEnded]
      rfl
  | closeParen =>
      obtain ⟨rfl, rfl⟩ := Position.next?_closeParen hNext
      refine Tracks.close ⟨?_, .closeParen, done, trivial, rfl⟩ _ _
      rw [foldlM_reverse_cons hTurns]
      rfl
  | operator op =>
      rcases Position.next?_operator hNext with ⟨rfl, rfl⟩ | ⟨hFront, rfl, rfl⟩
      · exact h.step_operator depth waiting op
      · rcases hFront with rfl | rfl
        · rcases hLast with rfl | ⟨rest, rfl⟩ <;> exact Tracks.sign hTurns
        · obtain ⟨op, rest, hOp, rfl⟩ := hLast
          rw [step_negation hOp]
          exact Tracks.sign ((foldlM_reverse_cons hTurns .openParen).trans rfl)

theorem Tracks.run {p q : Position} {s : PrefixMinus} {tokens : List Token}
    (h : Tracks p s.done) (hRun : tokens.foldlM Position.next? p = some q) :
    Tracks q (tokens.foldl PrefixMinus.step s).done := by
  induction tokens generalizing p s with
  | nil => exact Option.some.inj hRun ▸ h
  | cons token tokens ih =>
      rw [List.foldlM_cons] at hRun
      obtain ⟨middle, hNext, hRest⟩ := Option.bind_eq_some_iff.mp hRun
      exact ih (h.step hNext) hRest

/-- Completion turns a row that alternates into one that does so without
signs. -/
theorem turns_complete {tokens : List Token}
    (h : tokens.foldlM Position.next? .start = some .ended) :
    (complete tokens).foldlM takesTurn false = some true := by
  have hStart : Tracks .start PrefixMinus.start.done := ⟨rfl, Or.inl rfl⟩
  exact (hStart.run h).turns

end PrefixMinus

end KeypadCalculator
