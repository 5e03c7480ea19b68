import Mathlib.Data.List.Induction
import KeypadCalculator.Keypad.Admission
import KeypadCalculator.Proofs.Phrase.Evaluation
import KeypadCalculator.Proofs.Phrase.OperandStack

/-!
What counting operands tells about the order of the tokens. Only the number of
operands is checked, so an operand in the wrong place goes unnoticed if another
one is next to it: `2 3+` comes to what `2+3` comes to. Where no two operands are
side by side, the count is enough, and what comes to a number is well-formed.
-/

namespace KeypadCalculator

/-- What a row of tokens still needs at its position to be a sentence. -/
def Position.Needs : Position → List Token → Prop
  | .start, row => row = []
  | .operator, row =>
    ∀ operand, Derives (.operand true) operand → Derives .sentence (row ++ operand)
  | .percent, row =>
    ∀ operand, Derives (.operand false) operand → Derives .sentence (row ++ operand)
  | .ended, row => Derives .sentence row

theorem Derives.signed {operand : List Token} (h : Derives (.operand false) operand) :
    Derives (.operand true) operand := by
  cases h with
  | literal hValue => exact .literal hValue
  | group hInner => exact .group hInner

namespace Position

theorem Needs.operand {p : Position} {row operand : List Token} (h : p.Needs row)
    (hOpen : p ≠ .ended) (hOperand : Derives (.operand false) operand) :
    Derives .sentence (row ++ operand) := by
  cases p with
  | start => exact (show row = [] from h) ▸ .operand hOperand
  | operator => exact h operand hOperand.signed
  | percent => exact h operand hOperand
  | ended => exact absurd rfl hOpen

theorem Needs.operator {p q : Position} {row : List Token} {op : Operator} (h : p.Needs row)
    (hNext : p.next? (.operator op) = some q) : q.Needs (row ++ [.operator op]) := by
  have hAppend (operand : List Token) :
      row ++ [Token.operator op] ++ operand = row ++ .operator op :: operand := by simp
  rcases next?_operator hNext with ⟨rfl, rfl⟩ | ⟨hFront, rfl, rfl⟩
  · have hRow : Derives .sentence row := h
    by_cases hPercent : op = .percent
    · subst hPercent
      intro operand hOperand
      rw [hAppend]
      exact .binary hRow hOperand
    · have hSigned : (op != .percent) = true := by simpa using hPercent
      rw [if_neg hPercent]
      intro operand hOperand
      rw [hAppend]
      exact .binary hRow (hSigned ▸ hOperand)
  · intro operand hOperand
    rw [hAppend]
    rcases hFront with rfl | rfl
    · obtain rfl : row = [] := h
      exact .opposite hOperand
    · exact h _ (.negated hOperand)

end Position

/-- A row with some groups still open, and the position behind it: a sentence is
needed in each group, and an operand in front of it. -/
inductive Opens : Position → Nat → List Token → Prop where
  | row {p : Position} {row : List Token} (h : p.Needs row) : Opens p 0 row
  | group {p q : Position} {depth : Nat} {outer row : List Token} (hOuter : Opens q depth outer)
      (hOpen : q ≠ .ended) (h : p.Needs row) : Opens p (depth + 1) (outer ++ .openParen :: row)

namespace Opens

/-- What is written goes to the innermost group. -/
theorem append {p q : Position} {depth : Nat} {row suffix : List Token} (h : Opens p depth row)
    (hNeeds : ∀ inner, p.Needs inner → q.Needs (inner ++ suffix)) :
    Opens q depth (row ++ suffix) := by
  cases h with
  | row hRow => exact .row (hNeeds _ hRow)
  | group hOuter hOpen hRow =>
      rw [List.append_assoc, List.cons_append]
      exact .group hOuter hOpen (hNeeds _ hRow)

theorem step {p q : Position} {depth depth' : Nat} {row : List Token} {token : Token}
    (h : Opens p depth row) (hNext : p.next? token = some q)
    (hDepth : parenStep depth token = some depth') : Opens q depth' (row ++ [token]) := by
  cases token with
  | number digits =>
      obtain ⟨hOpen, rfl, hValue⟩ := Position.next?_number hNext
      obtain rfl : depth = depth' := Option.some.inj hDepth
      exact h.append fun inner hInner => hInner.operand hOpen (.literal hValue)
  | operator op =>
      obtain rfl : depth = depth' := Option.some.inj hDepth
      exact h.append fun inner hInner => hInner.operator hNext
  | openParen =>
      obtain ⟨hOpen, rfl⟩ := Position.next?_openParen hNext
      obtain rfl : depth + 1 = depth' := Option.some.inj hDepth
      have hStart : Position.start.Needs [] := rfl
      exact .group h hOpen hStart
  | closeParen =>
      obtain ⟨rfl, rfl⟩ := Position.next?_closeParen hNext
      cases h with
      | row _ => cases hDepth
      | @group _ _ depth outer row hOuter hOpen hRow =>
          obtain rfl : depth = depth' := Option.some.inj hDepth
          have hSentence : Derives .sentence row := hRow
          rw [List.append_assoc, List.cons_append]
          exact hOuter.append fun inner hInner => hInner.operand hOpen (.group hSentence)

theorem run {p q : Position} {depth depth' : Nat} {row tokens : List Token}
    (h : Opens p depth row) (hRun : tokens.foldlM Position.next? p = some q)
    (hDepth : tokens.foldlM parenStep depth = some depth') : Opens q depth' (row ++ tokens) := by
  induction tokens generalizing p depth row with
  | nil =>
      obtain rfl : p = q := Option.some.inj hRun
      obtain rfl : depth = depth' := Option.some.inj hDepth
      rwa [List.append_nil]
  | cons token tokens ih =>
      rw [List.foldlM_cons] at hRun hDepth
      obtain ⟨middle, hNext, hRun⟩ := Option.bind_eq_some_iff.mp hRun
      obtain ⟨lower, hStep, hDepth⟩ := Option.bind_eq_some_iff.mp hDepth
      have hRest := ih (h.step hNext hStep) hRun hDepth
      rwa [List.append_assoc, List.singleton_append] at hRest

end Opens

/-- Where operands and operators take turns up to an operand and the parentheses
balance, the tokens are a sentence. -/
theorem derives_of_alternates {tokens : List Token}
    (h : tokens.foldlM Position.next? .start = some .ended) (hBalanced : isBalanced tokens = true) :
    Derives .sentence tokens := by
  have hStart : Position.start.Needs [] := rfl
  have hOpens := (Opens.row hStart).run h (eq_of_beq hBalanced)
  rw [List.nil_append] at hOpens
  cases hOpens with
  | row hRow => exact hRow

namespace Token

def endsOperand : Token → Bool
  | .number _ | .closeParen => true
  | _ => false

def startsOperand : Token → Bool
  | .number _ | .openParen => true
  | _ => false

end Token

/-- Somewhere in the row an operand follows another with nothing between them. -/
def SideBySide (tokens : List Token) : Prop :=
  ∃ last first, Token.endsOperand last = true ∧ Token.startsOperand first = true ∧
    [last, first] <:+: tokens

namespace PrefixMinus

/-- The tokens so far have just come to the end of an operand. -/
def ended (done : List Token) : Bool :=
  done.head?.any Token.endsOperand

/-- Where a token stands between operands and operators that take turns. -/
def TakesPlace (done : List Token) : Token → Prop
  | .number digits => ended done = false ∧ (Token.number digits).value?.isSome
  | .openParen => ended done = false
  | .closeParen => ended done = true
  | .operator op =>
    ended done = true ∨ op = .subtract ∧ done.head? ≠ some (.operator .percent)

theorem EndsAt.ended_eq {p : Position} {done : List Token} (h : EndsAt p done) :
    ended done = (p == .ended) := by
  cases p with
  | start => rcases h with rfl | ⟨rest, rfl⟩ <;> rfl
  | operator =>
      obtain ⟨op, rest, -, rfl⟩ := h
      rfl
  | percent =>
      obtain ⟨rest, rfl⟩ := h
      rfl
  | ended =>
      obtain ⟨last, rest, hLast, rfl⟩ := h
      cases last <;> first | rfl | exact hLast.elim

theorem EndsAt.exists_next {p : Position} {done : List Token} (h : EndsAt p done) {token : Token}
    (hPlace : TakesPlace done token) : ∃ q, p.next? token = some q := by
  have hEnded := h.ended_eq
  cases token with
  | number digits =>
      obtain ⟨hOpen, hValue⟩ := hPlace
      cases p <;> simp_all [Position.next?]
  | openParen =>
      have hOpen : ended done = false := hPlace
      cases p <;> simp_all [Position.next?]
  | closeParen =>
      have hClosed : ended done = true := hPlace
      cases p <;> simp_all [Position.next?]
  | operator op =>
      rcases hPlace with hClosed | ⟨rfl, hHead⟩
      · cases p <;> simp_all [Position.next?]
      · cases p with
        | percent =>
            obtain ⟨rest, rfl⟩ := h
            exact absurd rfl hHead
        | _ => exact ⟨_, rfl⟩

/-- Among the tokens so far are no more operands than operators, but for one that
has just ended. -/
def Bounded (done : List Token) : Prop :=
  operandCount done ≤ operatorCount done + (ended done).toNat

/-- The tokens so far have all the operands that their operators need. -/
def Filled (done : List Token) : Prop :=
  operandCount done = operatorCount done + (ended done).toNat

theorem ended_closed (closes : Nat) {last : Token} (hLast : last.endsOperand = true)
    (done : List Token) :
    ended (List.replicate closes .closeParen ++ last :: done) = true := by
  cases closes with
  | zero => exact hLast
  | succ closes => rfl

theorem operandCount_closed (closes : Nat) (done : List Token) :
    operandCount (List.replicate closes .closeParen ++ done) = operandCount done := by
  simp [operandCount, List.countP_replicate, Token.value?]

theorem operatorCount_closed (closes : Nat) (done : List Token) :
    operatorCount (List.replicate closes .closeParen ++ done) = operatorCount done := by
  simp [operatorCount, List.countP_replicate, Token.isOperator]

/-- What one more token does to the counts, unless it begins an operand directly
behind another: the bound is kept, and the operators stay supplied only if the
token takes its place. -/
structure Counts (done : List Token) (token : Token) (next : List Token) : Prop where
  ended_eq : ended next = token.endsOperand
  bounded : Bounded next
  filled : Filled next → Filled done ∧ TakesPlace done token

theorem counts_number {done : List Token} (h : Bounded done) (hOpen : ended done = false)
    (digits : List Char) (closes : Nat) :
    Counts done (.number digits) (List.replicate closes .closeParen ++ .number digits :: done) := by
  have hEnded := ended_closed closes (show (Token.number digits).endsOperand = true from rfl) done
  rw [Bounded, hOpen] at h
  refine ⟨hEnded, ?_, fun hFilled => ?_⟩
  · rw [Bounded, hEnded, operandCount_closed, operatorCount_closed, operandCount_number,
      operatorCount_number]
    split <;> simp at h ⊢ <;> omega
  · rw [Filled, hEnded, operandCount_closed, operatorCount_closed, operandCount_number,
      operatorCount_number] at hFilled
    split at hFilled
    · rename_i hValue
      refine ⟨?_, hOpen, hValue⟩
      rw [Filled, hOpen]
      simp at hFilled ⊢
      omega
    · simp at h hFilled
      omega

theorem counts_closeParen {done : List Token} (h : Bounded done) (closes : Nat) :
    Counts done .closeParen (List.replicate closes .closeParen ++ .closeParen :: done) := by
  have hEnded := ended_closed closes (show Token.closeParen.endsOperand = true from rfl) done
  rw [Bounded] at h
  refine ⟨hEnded, ?_, fun hFilled => ?_⟩
  · rw [Bounded, hEnded, operandCount_closed, operatorCount_closed]
    cases hDone : ended done <;> simp [hDone] at h ⊢ <;> omega
  · rw [Filled, hEnded, operandCount_closed, operatorCount_closed] at hFilled
    cases hDone : ended done with
    | false =>
        simp [hDone] at h hFilled
        omega
    | true => exact ⟨by simpa [Filled, hDone] using hFilled, hDone⟩

theorem counts_openParen {done : List Token} (h : Bounded done) (hOpen : ended done = false) :
    Counts done .openParen (.openParen :: done) := by
  rw [Bounded, hOpen] at h
  refine ⟨rfl, h, fun hFilled => ⟨?_, hOpen⟩⟩
  rw [Filled, hOpen]
  exact hFilled

/-- An operator waits for an operand, and has one in front of it or a zero. -/
theorem counts_operator {done : List Token} (h : Bounded done) (op : Operator) :
    Counts done (.operator op) (.operator op :: done) := by
  rw [Bounded] at h
  refine ⟨rfl, ?_, fun hFilled => ?_⟩
  · change operandCount done ≤ operatorCount (.operator op :: done) + 0
    rw [operatorCount_operator]
    have hBound := (ended done).toNat_le
    omega
  · change operandCount done = operatorCount (.operator op :: done) + 0 at hFilled
    rw [operatorCount_operator] at hFilled
    cases hDone : ended done with
    | false =>
        simp [hDone] at h
        omega
    | true => exact ⟨by simpa [Filled, hDone] using hFilled, .inl hDone⟩

/-- A sign has a zero in front of it. -/
theorem counts_sign {done front : List Token} (h : Bounded done) (hOpen : ended done = false)
    (hPercent : done.head? ≠ some (.operator .percent))
    (hFront : operandCount front = operandCount done ∧ operatorCount front = operatorCount done) :
    Counts done (.operator .subtract) (.operator .subtract :: zeroLiteral :: front) := by
  rw [Bounded, hOpen] at h
  refine ⟨rfl, ?_, fun hFilled => ⟨?_, .inr ⟨rfl, hPercent⟩⟩⟩
  · change operandCount (.operator .subtract :: zeroLiteral :: front) ≤
      operatorCount (.operator .subtract :: zeroLiteral :: front) + 0
    simp at h ⊢
    omega
  · change operandCount (.operator .subtract :: zeroLiteral :: front) =
      operatorCount (.operator .subtract :: zeroLiteral :: front) + 0 at hFilled
    rw [Filled, hOpen]
    simp at hFilled ⊢
    omega

theorem counts_step {s : PrefixMinus} (h : Bounded s.done) {token : Token}
    (hApart : ended s.done = true → token.startsOperand = false) :
    Counts s.done token (s.step token).done := by
  obtain ⟨done, depth, waiting⟩ := s
  have hOpen (hStarts : token.startsOperand = true) : ended done = false := by
    rw [Bool.eq_false_iff]
    intro hEnded
    rw [hApart hEnded] at hStarts
    cases hStarts
  cases token with
  | number digits =>
      obtain ⟨closes, hDone⟩ := exists_done_close (.number digits :: done) depth waiting
      rw [step, hDone]
      exact counts_number h (hOpen rfl) digits closes
  | openParen => exact counts_openParen h (hOpen rfl)
  | closeParen =>
      obtain ⟨closes, hDone⟩ := exists_done_close (.closeParen :: done) (depth - 1)
        (waiting.filter (· ≤ depth - 1))
      rw [step, hDone]
      exact counts_closeParen h closes
  | operator op =>
      cases op with
      | subtract =>
          cases done with
          | nil => exact counts_sign h rfl (by simp) ⟨rfl, rfl⟩
          | cons last rest =>
              cases last with
              | openParen => exact counts_sign h rfl (by simp) ⟨rfl, rfl⟩
              | number digits => exact counts_operator h .subtract
              | closeParen => exact counts_operator h .subtract
              | operator op =>
                  by_cases hPercent : op = .percent
                  · subst hPercent
                    exact counts_operator h .subtract
                  · rw [step_negation hPercent]
                    exact counts_sign h rfl (by simpa using hPercent) ⟨rfl, rfl⟩
      | _ => exact counts_operator h _

/-- The tokens of a row without operands side by side hold no more operands than
operators, but for one that has just ended; and where they hold that many, operands
and operators take turns. -/
theorem counts_run (tokens : List Token) (hApart : ¬ SideBySide tokens) :
    ended (tokens.foldl step start).done = tokens.getLast?.any Token.endsOperand ∧
      Bounded (tokens.foldl step start).done ∧
      (Filled (tokens.foldl step start).done →
        ∃ p, tokens.foldlM Position.next? .start = some p) := by
  induction tokens using List.reverseRecOn with
  | nil => exact ⟨rfl, Nat.le_refl 0, fun _ => ⟨.start, rfl⟩⟩
  | append_singleton row token ih =>
      have hRow : ¬ SideBySide row := fun ⟨last, first, hLast, hFirst, hInfix⟩ =>
        hApart ⟨last, first, hLast, hFirst, hInfix.trans (List.prefix_append row [token]).isInfix⟩
      obtain ⟨hEnded, hBounded, hTurns⟩ := ih hRow
      have hStep : Counts (row.foldl step start).done token
          ((row.foldl step start).step token).done := by
        refine counts_step hBounded fun hLast => ?_
        rw [hEnded, Option.any_eq_true] at hLast
        obtain ⟨last, hRowLast, hLast⟩ := hLast
        rw [Bool.eq_false_iff]
        intro hFirst
        obtain ⟨front, rfl⟩ := List.getLast?_eq_some_iff.mp hRowLast
        exact hApart ⟨last, token, hLast, hFirst, front, [], by simp⟩
      rw [List.foldl_append, List.foldl_cons, List.foldl_nil, List.getLast?_concat]
      refine ⟨hStep.ended_eq, hStep.bounded, fun hFilled => ?_⟩
      obtain ⟨hBefore, hPlace⟩ := hStep.filled hFilled
      obtain ⟨p, hRun⟩ := hTurns hBefore
      have hStart : Tracks .start start.done := ⟨rfl, Or.inl rfl⟩
      obtain ⟨q, hNext⟩ := (hStart.run hRun).last.exists_next hPlace
      exact ⟨q, by rw [List.foldlM_append, hRun]; simpa using hNext⟩

/-- Where no operands are side by side, a row with one operand more than operators
is one in which they take turns up to an operand. -/
theorem alternates_of_counts {tokens : List Token} (hApart : ¬ SideBySide tokens)
    (hCount : operandCount (complete tokens) = operatorCount (complete tokens) + 1) :
    tokens.foldlM Position.next? .start = some .ended := by
  obtain ⟨-, hBounded, hTurns⟩ := counts_run tokens hApart
  rw [complete, operandCount_reverse, operatorCount_reverse] at hCount
  have hEnded : ended (tokens.foldl step start).done = true := by
    rw [Bounded, hCount] at hBounded
    cases hEnded : ended (tokens.foldl step start).done with
    | false =>
        rw [hEnded, Bool.toNat_false] at hBounded
        omega
    | true => rfl
  obtain ⟨p, hRun⟩ := hTurns (by rw [Filled, hCount, hEnded]; rfl)
  have hStart : Tracks .start start.done := ⟨rfl, Or.inl rfl⟩
  have hLast := (hStart.run hRun).last.ended_eq
  rw [hEnded] at hLast
  rw [hRun, eq_of_beq hLast.symm]

end PrefixMinus

/-- A row without a percent sign comes to a number only if it has one operand more
than operators, each sign counted with the zero it subtracts from. -/
theorem operandCount_of_evaluateTokens {tokens : List Token} {value : Binary64}
    (hPercent : Token.operator .percent ∉ tokens)
    (hOrdered : toPostfix (PrefixMinus.complete tokens) ≠ [])
    (hValue : evaluateTokens tokens = .ok value) :
    operandCount (PrefixMinus.complete tokens) =
      operatorCount (PrefixMinus.complete tokens) + 1 := by
  rw [evaluateTokens_of_ne_nil hOrdered] at hValue
  obtain ⟨-, taken, hConsumes⟩ := exists_consumes_of_evaluatePostfix hValue
  have hNone : taken = 0 := hConsumes.percent fun hMem =>
    hPercent (PrefixMinus.operator_mem_complete (mem_of_mem_toPostfix hMem))
  have hCount := hConsumes.count
  rw [hNone, operandCount_toPostfix, operatorCount_toPostfix] at hCount
  simp at hCount
  omega

/-- Without percent signs and with balanced parentheses, what comes to a number has
one operand more than operators, and it is well-formed unless somewhere one operand
follows another with nothing between them. -/
theorem derives_or_sideBySide_of_outcome {text : List Char} {value : Binary64}
    (hPercent : Token.operator .percent ∉ Token.ofText text)
    (hBalanced : isBalanced (Token.ofText text) = true)
    (hOrdered : toPostfix (PrefixMinus.complete (Token.ofText text)) ≠ [])
    (hValue : (evaluate text).outcome = .ok value) :
    operandCount (PrefixMinus.complete (Token.ofText text)) =
        operatorCount (PrefixMinus.complete (Token.ofText text)) + 1 ∧
      (Derives .sentence (Token.ofText text) ∨ SideBySide (Token.ofText text)) := by
  rw [evaluate_outcome] at hValue
  have hCount := operandCount_of_evaluateTokens hPercent hOrdered hValue
  refine ⟨hCount, ?_⟩
  by_cases hApart : SideBySide (Token.ofText text)
  · exact .inr hApart
  · exact .inl (derives_of_alternates (PrefixMinus.alternates_of_counts hApart hCount) hBalanced)

/-- The signed group of `2×-(3+4)` is in its place. -/
theorem derives_or_sideBySide_of_outcome_signed_group :
    Token.operator .percent ∉ Token.ofText "2×-(3+4)".toList ∧
      isBalanced (Token.ofText "2×-(3+4)".toList) = true ∧
      toPostfix (PrefixMinus.complete (Token.ofText "2×-(3+4)".toList)) ≠ [] ∧
      (∃ value, (evaluate "2×-(3+4)".toList).outcome = .ok value) ∧
      operandCount (PrefixMinus.complete (Token.ofText "2×-(3+4)".toList)) =
        operatorCount (PrefixMinus.complete (Token.ofText "2×-(3+4)".toList)) + 1 ∧
      (Derives .sentence (Token.ofText "2×-(3+4)".toList) ∨
        SideBySide (Token.ofText "2×-(3+4)".toList)) := by
  have hPercent : Token.operator .percent ∉ Token.ofText "2×-(3+4)".toList := by decide
  have hBalanced : isBalanced (Token.ofText "2×-(3+4)".toList) = true := by decide
  have hOrdered : toPostfix (PrefixMinus.complete (Token.ofText "2×-(3+4)".toList)) ≠ [] := by
    decide +kernel
  obtain ⟨value, hValue⟩ := Evaluation.exists_outcome
    (show (evaluate "2×-(3+4)".toList).value?.isSome = true by decide +kernel)
  exact ⟨hPercent, hBalanced, hOrdered, ⟨value, hValue⟩,
    derives_or_sideBySide_of_outcome hPercent hBalanced hOrdered hValue⟩

/-- The plus sign of `2 3+` has both of its operands on its left, side by side, and
none on its right. It comes to five all the same. -/
theorem outcome_misplaced_operand :
    Token.ofText "2 3+".toList = [.number ['2'], .number ['3'], .operator .add] ∧
      Token.operator .percent ∉ Token.ofText "2 3+".toList ∧
      isBalanced (Token.ofText "2 3+".toList) = true ∧
      (∀ digits, Token.number digits ∈ Token.ofText "2 3+".toList →
        (Token.number digits).value?.isSome) ∧
      toPostfix (PrefixMinus.complete (Token.ofText "2 3+".toList)) ≠ [] ∧
      (evaluate "2 3+".toList).value?.isSome = true ∧
      (evaluate "2 3+".toList).outcome = (evaluate "2+3".toList).outcome ∧
      SideBySide (Token.ofText "2 3+".toList) := by
  have hTokens : Token.ofText "2 3+".toList =
      [.number ['2'], .number ['3'], .operator .add] := by decide
  have hValues : ∀ digits, Token.number digits ∈ Token.ofText "2 3+".toList →
      (Token.number digits).value?.isSome := by
    intro digits hMem
    rw [hTokens] at hMem
    have hDigits : digits = ['2'] ∨ digits = ['3'] := by simpa using hMem
    rcases hDigits with rfl | rfl
    · exact value?_isSome_of_digit (by decide) (by simp [IsLiteralChar, Text.isAsciiDigit])
    · exact value?_isSome_of_digit (by decide) (by simp [IsLiteralChar, Text.isAsciiDigit])
  have hSide : SideBySide (Token.ofText "2 3+".toList) := by
    rw [hTokens]
    exact ⟨.number ['2'], .number ['3'], rfl, rfl, [], [.operator .add], rfl⟩
  exact ⟨hTokens, by decide, by decide, hValues, by decide +kernel, by decide +kernel,
    by decide +kernel, hSide⟩

end KeypadCalculator
