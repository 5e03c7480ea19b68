import KeypadCalculator.Proofs.Phrase.Arithmetic
import KeypadCalculator.Proofs.Phrase.Postorder

/-!
What evaluating a row in postfix order comes to, for every row of tokens. The number
of operands can be counted without looking at them, and the operands computed without
looking at faults; from both it can be told which token is the first that fails, and
with which fault.
-/

namespace KeypadCalculator

open Binary64

/-- The number of operands behind one more token. The percent sign takes a second one
only if it is there. -/
def heightAfter (height : Nat) : Token → Nat
  | .number _ => height + 1
  | .operator .percent => max (height - 1) 1
  | .operator _ => height - 1
  | .openParen | .closeParen => height

def height (tokens : List Token) : Nat :=
  tokens.foldl heightAfter 0

/-- The number of operands that a token needs. Parentheses and literals without a value
have no place in postfix order. -/
def need? : Token → Option Nat
  | .number digits => if (Token.number digits).value?.isSome then some 0 else none
  | .operator .percent => some 1
  | .operator _ => some 2
  | .openParen | .closeParen => none

/-- The operands behind one more token, computed without any check. -/
def valuesAfter (values : List Binary64) : Token → List Binary64
  | .number digits => (Token.number digits).value?.toList ++ values
  | .operator op => match values with
    | b :: below => op.compute (below.headD Binary64.zero) b :: below.tail
    | [] => []
  | .openParen | .closeParen => values

def values (tokens : List Token) : List Binary64 :=
  tokens.foldl valuesAfter []

/-- The fault of a token that finds its operands: its right operand may be zero. -/
def divisorFault? (operands : List Binary64) : Token → Option Fault
  | .operator op => match operands with
    | b :: _ => if b.isNought then op.zeroFault? else none
    | [] => none
  | _ => none

/-- The fault of a token, where none in front of it has one. -/
def faultAt? (front : List Token) (token : Token) : Option Fault :=
  if (need? token).any (· ≤ height front) then divisorFault? (values front) token
  else some .invalidExpression

/-- The fault of the first token that has one, where `front` stands in front. -/
def firstFault? (front : List Token) : List Token → Option Fault
  | [] => none
  | token :: rest => (faultAt? front token).or (firstFault? (front ++ [token]) rest)

theorem height_append_singleton (front : List Token) (token : Token) :
    height (front ++ [token]) = heightAfter (height front) token := by
  rw [height, List.foldl_append]
  rfl

theorem values_append_singleton (front : List Token) (token : Token) :
    values (front ++ [token]) = valuesAfter (values front) token := by
  rw [values, List.foldl_append]
  rfl

/-- A token does what its count and its arithmetic say, or has the fault that they
foresee. -/
theorem operandStep_values {front : List Token} (h : (values front).length = height front)
    (token : Token) :
    operandStep (values front) token = match faultAt? front token with
      | some fault => .error fault
      | none => .ok (values (front ++ [token])) := by
  rw [values_append_singleton, faultAt?, ← h]
  generalize values front = operands
  cases token with
  | number digits =>
      rw [operandStep, need?, valuesAfter]
      cases (Token.number digits).value? <;> rfl
  | openParen => rfl
  | closeParen => rfl
  | operator op =>
      cases operands with
      | nil => cases op <;> rfl
      | cons b operands =>
          cases operands with
          | nil =>
              cases op with
              | percent => cases hZero : b.isNought <;>
                  simp [operandStep, need?, valuesAfter, divisorFault?, Operator.zeroFault?,
                    Operator.compute, hundredth_eq, hZero]
              | _ => rfl
          | cons a below =>
              have hNeed : (need? (.operator op)).any (· ≤ (b :: a :: below).length) = true := by
                cases op <;> simp [need?]
              rw [Phrase.operandStep_operator, op.apply_eq_compute, if_pos hNeed, divisorFault?]
              cases (if b.isNought then op.zeroFault? else none) <;> rfl

/-- The count is the number of operands, as long as no token fails. -/
theorem length_values_append {front : List Token} (h : (values front).length = height front)
    {token : Token} (hFault : faultAt? front token = none) :
    (values (front ++ [token])).length = height (front ++ [token]) := by
  have hNeed : (need? token).any (· ≤ (values front).length) = true := by
    rw [faultAt?, ← h] at hFault
    split at hFault
    · assumption
    · cases hFault
  rw [values_append_singleton, height_append_singleton, ← h]
  clear h hFault
  generalize values front = operands at hNeed
  cases token with
  | number digits =>
      rw [need?] at hNeed
      obtain ⟨value, hValue⟩ : ∃ value, (Token.number digits).value? = some value := by
        rw [← Option.isSome_iff_exists]
        split at hNeed
        · assumption
        · cases hNeed
      simp [valuesAfter, heightAfter, hValue]
  | openParen => cases hNeed
  | closeParen => cases hNeed
  | operator op =>
      cases operands with
      | nil => cases op <;> simp [need?] at hNeed
      | cons b below =>
          cases op with
          | percent => simp [valuesAfter, heightAfter]; omega
          | _ =>
              have hBelow : 1 ≤ below.length := by simpa [need?] using hNeed
              simp [valuesAfter, heightAfter]
              omega

/-- Evaluating goes on to the first token that fails, or to the end, where the operands
are as many as were counted. -/
theorem foldlM_operandStep_values {front : List Token} (tokens : List Token)
    (h : (values front).length = height front) :
    tokens.foldlM operandStep (values front) = (match firstFault? front tokens with
      | some fault => .error fault
      | none => .ok (values (front ++ tokens))) ∧
      (firstFault? front tokens = none →
        (values (front ++ tokens)).length = height (front ++ tokens)) := by
  induction tokens generalizing front with
  | nil =>
      rw [List.append_nil]
      exact ⟨rfl, fun _ => h⟩
  | cons token tokens ih =>
      rw [List.foldlM_cons, operandStep_values h, firstFault?]
      cases hFault : faultAt? front token with
      | some fault =>
          rw [Option.some_or]
          exact ⟨rfl, fun hNone => by cases hNone⟩
      | none =>
          rw [Option.none_or]
          have hRest := ih (length_values_append h hFault)
          rwa [List.append_assoc, List.singleton_append] at hRest

theorem zeroFault?_ne_unknownOperator (op : Operator) (label : List Char) :
    op.zeroFault? ≠ some (.unknownOperator label) := by
  cases op <;> simp [Operator.zeroFault?]

theorem firstFault?_ne_unknownOperator (front tokens : List Token) (label : List Char) :
    firstFault? front tokens ≠ some (.unknownOperator label) := by
  induction tokens generalizing front with
  | nil => simp [firstFault?]
  | cons token tokens ih =>
      rw [firstFault?, Ne, Option.or_eq_some_iff, not_or]
      refine ⟨?_, fun hRest => ih (front ++ [token]) hRest.2⟩
      rw [faultAt?, divisorFault?.eq_def]
      repeat' split
      all_goals simp [zeroFault?_ne_unknownOperator]

/-- What is left at the end: the count decides whether it is one operand, and the
operand whether it is a number. -/
def settled (tokens : List Token) : Except Fault Binary64 :=
  if height tokens = 1 then
    let value := (values tokens).headD Binary64.zero
    if value.isFinite then .ok value else .error .notFinite
  else .error .invalidExpression

theorem settleOperands_values {tokens : List Token}
    (h : (values tokens).length = height tokens) :
    settleOperands (values tokens) = settled tokens := by
  rw [settled, ← h]
  match values tokens with
  | [] => rfl
  | [_] => rfl
  | _ :: _ :: _ => rfl

theorem settled_ne_unknownOperator (tokens : List Token) (label : List Char) :
    settled tokens ≠ .error (.unknownOperator label) := by
  rw [settled]
  dsimp only
  repeat' split
  all_goals simp

/-- The outcome of any row in postfix order: the fault of the first token that fails, or
else what the count of operands and the one operand decide. No operator is unknown. -/
theorem evaluatePostfix_eq_firstFault (tokens : List Token) :
    (evaluatePostfix tokens = match firstFault? [] tokens with
      | some fault => .error fault
      | none => settled tokens) ∧
      ∀ label, evaluatePostfix tokens ≠ .error (.unknownOperator label) := by
  have hOutcome : evaluatePostfix tokens = match firstFault? [] tokens with
      | some fault => .error fault
      | none => settled tokens := by
    obtain ⟨hRun, hLength⟩ := @foldlM_operandStep_values [] tokens rfl
    change tokens.foldlM operandStep (values []) >>= settleOperands = _
    rw [hRun]
    cases hFault : firstFault? [] tokens with
    | some fault => rfl
    | none => exact settleOperands_values (hLength hFault)
  refine ⟨hOutcome, fun label hError => ?_⟩
  rw [hOutcome] at hError
  cases hFault : firstFault? [] tokens with
  | some fault =>
      rw [hFault] at hError
      obtain rfl := Except.error.inj hError
      exact firstFault?_ne_unknownOperator [] tokens label hFault
  | none =>
      rw [hFault] at hError
      exact settled_ne_unknownOperator tokens label hError

end KeypadCalculator
