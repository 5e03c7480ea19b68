import KeypadCalculator.Proofs.Phrase.Alternation
import KeypadCalculator.Proofs.Phrase.Postorder
import KeypadCalculator.Proofs.Phrase.Released

/-!
No operator lacks an operand where operands and operators take turns. The
number of operands is tied to the number of pending operators: there is one for
each of them, and one more behind an operand.
-/

namespace KeypadCalculator

/-- A fault that the arithmetic of an operation finds. -/
def Fault.IsZeroDivisor (fault : Fault) : Prop :=
  fault = .divisionByZero ∨ fault = .moduloByZero

/-- So many operands are left, unless the arithmetic failed on the way. -/
def Leaves (count : Nat) : Except Fault (List Binary64) → Prop
  | .ok operands => operands.length = count
  | .error fault => fault.IsZeroDivisor

theorem Leaves.bind {count total : Nat} {outcome : Except Fault (List Binary64)}
    {next : List Binary64 → Except Fault (List Binary64)} (h : Leaves count outcome)
    (hNext : ∀ operands, operands.length = count → Leaves total (next operands)) :
    Leaves total (outcome >>= next) := by
  cases outcome with
  | error fault => exact h
  | ok operands => exact hNext operands h

theorem Operator.isZeroDivisor_of_apply {op : Operator} {a b : Binary64} {fault : Fault}
    (h : op.apply a b = .error fault) : fault.IsZeroDivisor := by
  cases op with
  | divide =>
      rw [Operator.apply] at h
      split at h
      · exact .inl (Except.error.inj h).symm
      · cases h
  | modulo =>
      rw [Operator.apply] at h
      split at h
      · exact .inr (Except.error.inj h).symm
      · cases h
  | _ => cases h

theorem leaves_number {digits : List Char} (hValue : (Token.number digits).value?.isSome)
    (operands : List Binary64) :
    Leaves (operands.length + 1) (operandStep operands (.number digits)) := by
  obtain ⟨value, hValue⟩ := Option.isSome_iff_exists.mp hValue
  rw [operandStep, hValue]
  rfl

theorem leaves_operator {count : Nat} {operands : List Binary64}
    (h : operands.length = count + 2) (op : Operator) :
    Leaves (count + 1) (operandStep operands (.operator op)) := by
  match operands, h with
  | b :: a :: below, h =>
      rw [Phrase.operandStep_operator]
      cases hApply : op.apply a b with
      | error fault => exact op.isZeroDivisor_of_apply hApply
      | ok value => simpa [Except.map, Leaves] using h

/-- A row of operators takes one operand for each of them. -/
theorem leaves_operators {count : Nat} {tokens : List Token}
    (hTokens : ∀ token ∈ tokens, ∃ op, token = .operator op) {operands : List Binary64}
    (h : operands.length = count + 1 + tokens.length) :
    Leaves (count + 1) (tokens.foldlM operandStep operands) := by
  induction tokens generalizing operands with
  | nil => exact h
  | cons token tokens ih =>
      obtain ⟨op, rfl⟩ := hTokens token List.mem_cons_self
      rw [List.foldlM_cons]
      have hLength : operands.length = (count + tokens.length) + 2 := by
        rw [h, List.length_cons]
        omega
      refine (leaves_operator hLength op).bind fun operands hOperands => ?_
      exact ih (fun token hMem => hTokens token (List.mem_cons_of_mem _ hMem)) (by omega)

/-- The operators that are released take their operands before the conversion
goes on with those that are kept. -/
theorem leaves_released {released : List Token} {kept stack : List Pending}
    (hAppend : released ++ Pending.releaseAll kept = Pending.releaseAll stack)
    {operands : List Binary64}
    (hOperands : operands.length = (Pending.releaseAll stack).length + 1) :
    Leaves ((Pending.releaseAll kept).length + 1) (released.foldlM operandStep operands) := by
  refine leaves_operators (fun token hMem => ?_) ?_
  · exact Pending.exists_operator_of_mem_releaseAll (hAppend ▸ List.mem_append_left _ hMem)
  · rw [hOperands, ← hAppend, List.length_append]
    omega

/-- Evaluating what the conversion writes, with one operand for each pending
operator, and one more behind an operand, leaves one. -/
theorem leaves_postfixFrom {ended : Bool} {tokens : List Token}
    (h : tokens.foldlM takesTurn ended = some true) {stack : List Pending}
    {operands : List Binary64}
    (hOperands : operands.length = (Pending.releaseAll stack).length + ended.toNat) :
    Leaves 1 ((postfixFrom stack tokens).foldlM operandStep operands) := by
  induction tokens generalizing ended stack operands with
  | nil =>
      obtain rfl : ended = true := Option.some.inj h
      have hAll : Pending.releaseAll stack ++ Pending.releaseAll [] = Pending.releaseAll stack :=
        List.append_nil _
      exact leaves_released hAll hOperands
  | cons token tokens ih =>
      rw [List.foldlM_cons] at h
      obtain ⟨middle, hTurn, hRest⟩ := Option.bind_eq_some_iff.mp h
      cases token with
      | number digits =>
          obtain ⟨rfl, hValue, rfl⟩ : ended = false ∧
              (Token.number digits).value?.isSome ∧ middle = true := by
            cases ended <;> grind [takesTurn]
          rw [postfixFrom, if_pos hValue, List.foldlM_cons]
          exact (leaves_number hValue operands).bind fun next hNext =>
            ih hRest (by simpa [hOperands] using hNext)
      | openParen =>
          obtain ⟨rfl, rfl⟩ : ended = false ∧ middle = false := by
            cases ended <;> grind [takesTurn]
          exact ih hRest hOperands
      | closeParen =>
          obtain ⟨rfl, rfl⟩ : ended = true ∧ middle = true := by
            cases ended <;> grind [takesTurn]
          rw [postfixFrom, List.foldlM_append]
          have hGroup := leaves_released (Pending.releaseGroup_append_releaseAll stack) hOperands
          exact hGroup.bind fun next hNext => ih hRest hNext
      | operator op =>
          obtain ⟨rfl, rfl⟩ : ended = true ∧ middle = false := by
            cases ended <;> grind [takesTurn]
          rw [postfixFrom, List.foldlM_append]
          have hRelease := leaves_released (Pending.release_append_releaseAll op stack) hOperands
          exact hRelease.bind fun next hNext => ih hRest hNext

/-- A row of tokens that alternates up to an operand comes to a number, or fails
for a reason that lies in its numbers. -/
theorem evaluateTokens_of_alternates {tokens : List Token}
    (h : tokens.foldlM Position.next? .start = some .ended) {fault : Fault}
    (hFault : evaluateTokens tokens = .error fault) :
    fault.IsZeroDivisor ∨ fault = .notFinite := by
  have hLeaves : Leaves 1 ((toPostfix (PrefixMinus.complete tokens)).foldlM operandStep []) :=
    leaves_postfixFrom (PrefixMinus.turns_complete h) rfl
  rw [evaluateTokens] at hFault
  split at hFault
  · cases hFault
  · rw [evaluatePostfix] at hFault
    revert hFault hLeaves
    generalize (toPostfix (PrefixMinus.complete tokens)).foldlM operandStep [] = outcome
    intro hLeaves hFault
    cases outcome with
    | error other =>
        obtain rfl : other = fault := Except.error.inj hFault
        exact .inl hLeaves
    | ok operands =>
        obtain ⟨value, rfl⟩ := List.length_eq_one_iff.mp hLeaves
        change settleOperands [value] = .error fault at hFault
        rw [settleOperands] at hFault
        split at hFault
        · cases hFault
        · exact .inr (Except.error.inj hFault).symm

end KeypadCalculator
