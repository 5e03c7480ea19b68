import KeypadCalculator.Proofs.Phrase.OperandCount

/-!
The operands while a row in postfix order is evaluated. What a token does to them does
not depend on those further below, and a row cannot leave more of them than its counts
allow. Only a percent sign that takes one operand alone escapes the count.
-/

namespace KeypadCalculator

theorem exists_of_bind_eq_ok {α β : Type} {outcome : Except Fault α} {next : α → Except Fault β}
    {b : β} (h : outcome >>= next = .ok b) : ∃ a, outcome = .ok a ∧ next a = .ok b := by
  cases outcome with
  | error fault => cases h
  | ok a => exact ⟨a, rfl, h⟩

/-- All that a token does when it finds its operands. -/
theorem operandStep_cases {operands result : List Binary64} {token : Token}
    (h : operandStep operands token = .ok result) :
    (∃ digits value, token = .number digits ∧ (Token.number digits).value? = some value ∧
      result = value :: operands) ∨
    (∃ op a b c below, token = .operator op ∧ operands = b :: a :: below ∧
      op.apply a b = .ok c ∧ result = c :: below) ∨
    ∃ b, token = .operator .percent ∧ operands = [b] ∧ result = [hundredth b] := by
  cases token with
  | number digits =>
      cases hValue : (Token.number digits).value? with
      | none =>
          rw [operandStep, hValue] at h
          cases h
      | some value =>
          rw [operandStep, hValue] at h
          cases h
          exact .inl ⟨digits, value, rfl, hValue, rfl⟩
  | openParen => cases h
  | closeParen => cases h
  | operator op =>
      cases operands with
      | nil => cases op <;> cases h
      | cons b operands =>
          cases operands with
          | nil =>
              cases op with
              | percent =>
                  cases h
                  exact .inr (.inr ⟨b, rfl, rfl, rfl⟩)
              | _ => cases h
          | cons a below =>
              rw [Phrase.operandStep_operator] at h
              cases hApply : op.apply a b with
              | error fault =>
                  rw [hApply] at h
                  cases h
              | ok c =>
                  rw [hApply] at h
                  cases h
                  exact .inr (.inl ⟨op, a, b, c, below, rfl, rfl, hApply, rfl⟩)

theorem operandStep_ne_nil {operands result : List Binary64} {token : Token}
    (h : operandStep operands token = .ok result) : result ≠ [] := by
  rcases operandStep_cases h with ⟨digits, value, -, -, rfl⟩ |
    ⟨op, a, b, c, below, -, -, -, rfl⟩ | ⟨b, -, -, rfl⟩
  · exact List.cons_ne_nil value operands
  · exact List.cons_ne_nil c below
  · exact List.cons_ne_nil (hundredth b) []

/-- Something is left as soon as something was evaluated. -/
theorem ne_nil_of_foldlM {tokens : List Token} {operands result : List Binary64}
    (hTokens : tokens ≠ []) (h : tokens.foldlM operandStep operands = .ok result) :
    result ≠ [] := by
  induction tokens generalizing operands with
  | nil => exact absurd rfl hTokens
  | cons token tokens ih =>
      rw [List.foldlM_cons] at h
      obtain ⟨middle, hStep, hRest⟩ := exists_of_bind_eq_ok h
      cases tokens with
      | nil =>
          cases hRest
          exact operandStep_ne_nil hStep
      | cons next tokens => exact ih (List.cons_ne_nil next tokens) hRest

/-- Only a zero divisor, or a lack of operands, stops an evaluation on its way. -/
theorem fault_of_operandStep {operands : List Binary64} {token : Token} {fault : Fault}
    (h : operandStep operands token = .error fault) :
    fault.IsZeroDivisor ∨ fault = .invalidExpression := by
  cases token with
  | number digits =>
      rw [operandStep] at h
      split at h
      · cases h
      · exact .inr (Except.error.inj h).symm
  | openParen => exact .inr (Except.error.inj h).symm
  | closeParen => exact .inr (Except.error.inj h).symm
  | operator op =>
      cases operands with
      | nil => cases op <;> exact .inr (Except.error.inj h).symm
      | cons b operands =>
          cases operands with
          | nil =>
              cases op with
              | percent => cases h
              | _ => exact .inr (Except.error.inj h).symm
          | cons a below =>
              rw [Phrase.operandStep_operator] at h
              cases hApply : op.apply a b with
              | error other =>
                  rw [hApply] at h
                  obtain rfl : other = fault := Except.error.inj h
                  exact .inl (op.isZeroDivisor_of_apply hApply)
              | ok c =>
                  rw [hApply] at h
                  cases h

theorem fault_of_foldlM {tokens : List Token} {operands : List Binary64} {fault : Fault}
    (h : tokens.foldlM operandStep operands = .error fault) :
    fault.IsZeroDivisor ∨ fault = .invalidExpression := by
  induction tokens generalizing operands with
  | nil => cases h
  | cons token tokens ih =>
      rw [List.foldlM_cons] at h
      cases hStep : operandStep operands token with
      | error other =>
          rw [hStep] at h
          obtain rfl : other = fault := Except.error.inj h
          exact fault_of_operandStep hStep
      | ok middle =>
          rw [hStep] at h
          exact ih h

/-- What a row does to some operands, and to those below them: it takes no more
than the percent signs do that find one operand alone. -/
structure Consumes (tokens : List Token) (operands result : List Binary64) (taken : Nat) :
    Prop where
  run (below : List Binary64) :
    tokens.foldlM operandStep (operands ++ below) = .ok (result ++ below.drop taken)
  count : result.length + operatorCount tokens = operands.length + operandCount tokens + taken
  percent : Token.operator .percent ∉ tokens → taken = 0

theorem Consumes.nil (operands : List Binary64) : Consumes [] operands operands 0 :=
  ⟨fun _ => rfl, rfl, fun _ => rfl⟩

theorem Consumes.append {tokens rest : List Token} {operands middle result : List Binary64}
    {first second : Nat} (h : Consumes tokens operands middle first)
    (hRest : Consumes rest middle result second) :
    Consumes (tokens ++ rest) operands result (first + second) where
  run below := by
    rw [List.foldlM_append, h.run]
    exact (hRest.run _).trans (by rw [List.drop_drop])
  count := by
    have hFirst := h.count
    have hSecond := hRest.count
    rw [operandCount_append, operatorCount_append]
    omega
  percent hPercent := by
    rw [List.mem_append, not_or] at hPercent
    rw [h.percent hPercent.1, hRest.percent hPercent.2]

theorem Consumes.number {digits : List Char} {value : Binary64}
    (hValue : (Token.number digits).value? = some value) (operands : List Binary64) :
    Consumes [.number digits] operands (value :: operands) 0 where
  run below := by
    rw [List.foldlM_cons, operandStep, hValue]
    rfl
  count := by
    simp [operandCount_number, hValue]
  percent _ := rfl

theorem Consumes.operator {op : Operator} {a b c : Binary64} (h : op.apply a b = .ok c)
    (operands : List Binary64) :
    Consumes [.operator op] (b :: a :: operands) (c :: operands) 0 where
  run below := by
    rw [List.foldlM_cons, List.cons_append, List.cons_append, Phrase.operandStep_operator, h]
    rfl
  count := by simp
  percent _ := rfl

/-- A percent sign that finds one operand alone takes the next one below. -/
theorem Consumes.percent_single (b : Binary64) :
    Consumes [.operator .percent] [b] [hundredth b] 1 where
  run below := by
    rw [List.foldlM_cons, List.cons_append, operandStep]
    cases below <;> rfl
  count := rfl
  percent hPercent := absurd List.mem_cons_self hPercent

theorem exists_consumes_step {operands result : List Binary64} {token : Token}
    (h : operandStep operands token = .ok result) :
    ∃ taken, Consumes [token] operands result taken := by
  rcases operandStep_cases h with ⟨digits, value, rfl, hValue, rfl⟩ |
    ⟨op, a, b, c, below, rfl, rfl, hApply, rfl⟩ | ⟨b, rfl, rfl, rfl⟩
  · exact ⟨0, .number hValue operands⟩
  · exact ⟨0, .operator hApply below⟩
  · exact ⟨1, .percent_single b⟩

/-- A row that runs on some operands runs on more below them as well. -/
theorem exists_consumes {tokens : List Token} {operands result : List Binary64}
    (h : tokens.foldlM operandStep operands = .ok result) :
    ∃ taken, Consumes tokens operands result taken := by
  induction tokens generalizing operands with
  | nil =>
      cases h
      exact ⟨0, .nil result⟩
  | cons token tokens ih =>
      rw [List.foldlM_cons] at h
      obtain ⟨middle, hStep, hRest⟩ := exists_of_bind_eq_ok h
      obtain ⟨first, hFirst⟩ := exists_consumes_step hStep
      obtain ⟨second, hSecond⟩ := ih hRest
      exact ⟨first + second, hFirst.append hSecond⟩

/-- Without percent signs the counts decide how many operands are left. -/
theorem length_of_foldlM {tokens : List Token} {operands result : List Binary64}
    (hPercent : Token.operator .percent ∉ tokens)
    (h : tokens.foldlM operandStep operands = .ok result) :
    result.length + operatorCount tokens = operands.length + operandCount tokens := by
  obtain ⟨taken, hConsumes⟩ := exists_consumes h
  have hCount := hConsumes.count
  rwa [hConsumes.percent hPercent] at hCount

/-- A row that comes to a number has left it as the only operand. -/
theorem exists_consumes_of_evaluatePostfix {tokens : List Token} {value : Binary64}
    (h : evaluatePostfix tokens = .ok value) :
    value.isFinite = true ∧ ∃ taken, Consumes tokens [] [value] taken := by
  rw [evaluatePostfix] at h
  obtain ⟨operands, hRun, hSettle⟩ := exists_of_bind_eq_ok h
  cases operands with
  | nil => cases hSettle
  | cons last operands =>
      cases operands with
      | nil =>
          rw [settleOperands] at hSettle
          split at hSettle
          · cases hSettle
            rename_i hFinite
            exact ⟨hFinite, exists_consumes hRun⟩
          · cases hSettle
      | cons _ _ => cases hSettle

/-- Where something can be evaluated, a row comes to what its postfix order comes
to. -/
theorem evaluateTokens_of_ne_nil {tokens : List Token}
    (h : toPostfix (PrefixMinus.complete tokens) ≠ []) :
    evaluateTokens tokens = evaluatePostfix (toPostfix (PrefixMinus.complete tokens)) := by
  rw [evaluateTokens, if_neg (by simpa using h)]

end KeypadCalculator
