import KeypadCalculator.Proofs.Phrase.Context
import KeypadCalculator.Proofs.Phrase.Evaluation
import KeypadCalculator.Proofs.Phrase.Released
import KeypadCalculator.Proofs.Phrase.Suffix

/-!
A group inside an expression. Its parentheses keep its tokens together in postfix
order, and what stands around them is the same for every group. But postfix order
has no parentheses: a percent sign that finds no second operand in the group takes
the one below, and that is an operand from outside wherever there is one.
-/

namespace KeypadCalculator

namespace PrefixMinus

/-- Closing does not look at the tokens that are written. -/
theorem exists_close_append (front : List Token) (depth : Nat) (waiting : List Nat) :
    ∃ (front' : List Token) (depth' : Nat) (waiting' : List Nat), ∀ done,
      close (front ++ done) depth waiting = ⟨front' ++ done, depth', waiting'⟩ := by
  obtain ⟨closes, depth', waiting', hClose⟩ := exists_close_eq depth waiting
  refine ⟨List.replicate closes .closeParen ++ front, depth', waiting', fun done => ?_⟩
  rw [hClose, List.append_assoc]

/-- Behind a closing parenthesis the pass does not look at what is in front of
it. -/
theorem exists_step_closed (token : Token) (front : List Token) (depth : Nat)
    (waiting : List Nat) :
    ∃ (front' : List Token) (depth' : Nat) (waiting' : List Nat), ∀ done,
      step ⟨front ++ .closeParen :: done, depth, waiting⟩ token =
        ⟨front' ++ .closeParen :: done, depth', waiting'⟩ := by
  cases token with
  | number digits =>
      obtain ⟨front', depth', waiting', hClose⟩ :=
        exists_close_append (.number digits :: front) depth waiting
      exact ⟨front', depth', waiting', fun done => hClose (.closeParen :: done)⟩
  | openParen => exact ⟨.openParen :: front, depth + 1, waiting, fun _ => rfl⟩
  | closeParen =>
      obtain ⟨front', depth', waiting', hClose⟩ := exists_close_append (.closeParen :: front)
        (depth - 1) (waiting.filter (· ≤ depth - 1))
      exact ⟨front', depth', waiting', fun done => hClose (.closeParen :: done)⟩
  | operator op =>
      cases op with
      | subtract =>
          cases front with
          | nil => exact ⟨[.operator .subtract], depth, waiting, fun _ => rfl⟩
          | cons last front =>
              cases last with
              | number digits =>
                  exact ⟨.operator .subtract :: .number digits :: front, depth, waiting,
                    fun _ => rfl⟩
              | closeParen =>
                  exact ⟨.operator .subtract :: .closeParen :: front, depth, waiting,
                    fun _ => rfl⟩
              | openParen =>
                  exact ⟨.operator .subtract :: zeroLiteral :: .openParen :: front, depth,
                    waiting, fun _ => rfl⟩
              | operator op =>
                  by_cases hPercent : op = .percent
                  · subst hPercent
                    exact ⟨.operator .subtract :: .operator .percent :: front, depth, waiting,
                      fun _ => rfl⟩
                  · exact ⟨.operator .subtract :: zeroLiteral :: .openParen ::
                      .operator op :: front, depth + 1, (depth + 1) :: waiting,
                      fun _ => step_negation hPercent depth waiting⟩
      | _ => exact ⟨.operator _ :: front, depth, waiting, fun _ => rfl⟩

theorem exists_foldl_closed (tokens front : List Token) (depth : Nat) (waiting : List Nat) :
    ∃ (front' : List Token) (depth' : Nat) (waiting' : List Nat), ∀ done,
      tokens.foldl step ⟨front ++ .closeParen :: done, depth, waiting⟩ =
        ⟨front' ++ .closeParen :: done, depth', waiting'⟩ := by
  induction tokens generalizing front depth waiting with
  | nil => exact ⟨front, depth, waiting, fun _ => rfl⟩
  | cons token tokens ih =>
      obtain ⟨front', depth', waiting', hStep⟩ := exists_step_closed token front depth waiting
      obtain ⟨front'', depth'', waiting'', hRun⟩ := ih front' depth' waiting'
      refine ⟨front'', depth'', waiting'', fun done => ?_⟩
      rw [List.foldl_cons, hStep, hRun]

/-- What the pass makes of the tokens around a group does not depend on the group. -/
theorem exists_complete_group (before behind : List Token) :
    ∃ front back, ∀ inner out, Completes .sentence inner out →
      complete (before ++ .openParen :: (inner ++ .closeParen :: behind)) =
        front ++ .openParen :: (out ++ .closeParen :: back) := by
  have hNone : Waits start.depth start.waiting := Waits.none 0
  have hWaits := hNone.run before
  generalize hStart : before.foldl step start = s at hWaits
  obtain ⟨closes, depth, waiting, hClose⟩ := exists_close_eq s.depth s.waiting
  obtain ⟨back, depth', waiting', hRun⟩ :=
    exists_foldl_closed behind (List.replicate closes .closeParen) depth waiting
  refine ⟨s.done.reverse, back.reverse, fun inner out h => ?_⟩
  have hGroup : (.openParen :: (inner ++ [.closeParen])).foldl step s =
      close (.closeParen :: (out.reverse ++ .openParen :: s.done)) s.depth s.waiting := by
    have hOperand : (Form.operand false).Begins s := ⟨nofun, hWaits.reached⟩
    simpa using h.group.run hOperand
  have hRow : before ++ .openParen :: (inner ++ .closeParen :: behind) =
      before ++ (.openParen :: (inner ++ [.closeParen])) ++ behind := by simp
  rw [complete, hRow, List.foldl_append, List.foldl_append, hStart, hGroup, hClose, hRun]
  simp

end PrefixMinus

/-- A group is converted as if it stood alone, and its closing parenthesis releases
what is left of it. -/
theorem postfixFrom_group {tokens : List Token} {stack : List Pending}
    (h : tokens.foldlM parenStep (stack.count .openParen) = some 0) (low : List Pending)
    (rest : List Token) :
    postfixFrom (stack ++ .openParen :: low) (tokens ++ .closeParen :: rest) =
      postfixFrom stack tokens ++ postfixFrom low rest := by
  induction tokens generalizing stack with
  | nil =>
      have hCount : stack.count .openParen = 0 := Option.some.inj h
      show (Pending.releaseGroup (stack ++ .openParen :: low)).1 ++
        postfixFrom (Pending.releaseGroup (stack ++ .openParen :: low)).2 rest = _
      rw [Pending.releaseGroup_append_openParen hCount]
      rfl
  | cons token tokens ih =>
      rw [List.foldlM_cons] at h
      obtain ⟨depth, hStep, hRest⟩ := Option.bind_eq_some_iff.mp h
      cases token with
      | number digits =>
          obtain rfl : stack.count .openParen = depth := Option.some.inj hStep
          rw [List.cons_append, postfixFrom, postfixFrom, ih hRest]
          split <;> rfl
      | operator op =>
          obtain rfl : stack.count .openParen = depth := Option.some.inj hStep
          have hKept := @ih (.operator op :: (Pending.release op stack).2)
            (by simpa [Pending.count_release] using hRest)
          rw [List.cons_append, postfixFrom, Pending.release_append_openParen, postfixFrom,
            List.append_assoc]
          exact congrArg _ hKept
      | openParen =>
          obtain rfl : stack.count .openParen + 1 = depth := Option.some.inj hStep
          exact @ih (.openParen :: stack) (by simpa using hRest)
      | closeParen =>
          cases hCount : stack.count .openParen with
          | zero =>
              rw [hCount] at hStep
              cases hStep
          | succ inside =>
              rw [hCount] at hStep
              obtain rfl : inside = depth := Option.some.inj hStep
              obtain ⟨hAppend, hLower⟩ := Pending.releaseGroup_append_of_count hCount
                (.openParen :: low)
              have hKept := @ih (Pending.releaseGroup stack).2 (by rwa [hLower])
              rw [List.cons_append, postfixFrom, hAppend, postfixFrom, List.append_assoc]
              exact congrArg _ hKept

/-- What the conversion writes for the tokens in front is the same whatever follows
them. -/
theorem exists_postfixFrom_append (tokens : List Token) (stack : List Pending) :
    ∃ (written : List Token) (kept : List Pending), ∀ rest,
      postfixFrom stack (tokens ++ rest) = written ++ postfixFrom kept rest := by
  induction tokens generalizing stack with
  | nil => exact ⟨[], stack, fun _ => rfl⟩
  | cons token tokens ih =>
      cases token with
      | number digits =>
          obtain ⟨written, kept, hRest⟩ := ih stack
          by_cases hValue : (Token.number digits).value?.isSome
          · refine ⟨.number digits :: written, kept, fun rest => ?_⟩
            rw [List.cons_append, postfixFrom, if_pos hValue, hRest, List.cons_append]
          · refine ⟨written, kept, fun rest => ?_⟩
            rw [List.cons_append, postfixFrom, if_neg hValue, hRest]
      | operator op =>
          obtain ⟨written, kept, hRest⟩ := ih (.operator op :: (Pending.release op stack).2)
          refine ⟨(Pending.release op stack).1 ++ written, kept, fun rest => ?_⟩
          rw [List.append_assoc, ← hRest]
          rfl
      | openParen => exact ih (.openParen :: stack)
      | closeParen =>
          obtain ⟨written, kept, hRest⟩ := ih (Pending.releaseGroup stack).2
          refine ⟨(Pending.releaseGroup stack).1 ++ written, kept, fun rest => ?_⟩
          rw [List.append_assoc, ← hRest]
          rfl

/-- What the conversion writes around a group does not depend on the group. -/
theorem exists_toPostfix_group (before behind : List Token) :
    ∃ written awaiting, ∀ inner out, Completes .sentence inner out →
      toPostfix (PrefixMinus.complete
          (before ++ .openParen :: (inner ++ .closeParen :: behind))) =
        written ++ (toPostfix out ++ awaiting) := by
  obtain ⟨front, back, hComplete⟩ := PrefixMinus.exists_complete_group before behind
  obtain ⟨written, kept, hFront⟩ := exists_postfixFrom_append front []
  refine ⟨written, postfixFrom kept back, fun inner out h => ?_⟩
  have hGroup := @postfixFrom_group out [] (h.nested 0) kept back
  rw [hComplete inner out h, toPostfix, hFront]
  exact congrArg _ hGroup

/-- Two members that differ tell where in a list their common place is. -/
theorem eq_of_append_cons_eq {α : Type} {first second : α} (hDiffer : first ≠ second)
    {front back front' back' : List α}
    (hFirst : front ++ first :: back = front' ++ first :: back')
    (hSecond : front ++ second :: back = front' ++ second :: back') :
    front = front' ∧ back = back' := by
  induction front generalizing front' with
  | nil =>
      cases front' with
      | nil => exact ⟨rfl, (List.cons.inj hFirst).2⟩
      | cons token front' =>
          have hToken : first = token := (List.cons.inj hFirst).1
          have hOther : second = token := (List.cons.inj hSecond).1
          exact absurd (hToken.trans hOther.symm) hDiffer
  | cons token front ih =>
      cases front' with
      | nil =>
          have hToken : token = first := (List.cons.inj hFirst).1
          have hOther : token = second := (List.cons.inj hSecond).1
          exact absurd (hToken.symm.trans hOther) hDiffer
      | cons token' front' =>
          obtain ⟨rfl, hRest⟩ := List.cons.inj hFirst
          obtain ⟨rfl, rfl⟩ := ih hRest (List.cons.inj hSecond).2
          exact ⟨rfl, rfl⟩

/-- In postfix order a group stands where the operand of its context stands. -/
theorem toPostfix_complete_group {c : Context} (hContext : c.WellFormed) {inner out : List Token}
    (h : Completes .sentence inner out) :
    toPostfix (PrefixMinus.complete
        (c.before ++ .openParen :: (inner ++ .closeParen :: c.behind))) =
      c.written ++ (toPostfix out ++ c.awaiting) := by
  obtain ⟨written, awaiting, hGroup⟩ := exists_toPostfix_group c.before c.behind
  -- For the group of a literal the tree is known, and two such groups are enough.
  have hLiteral {digits : List Char} (hValue : (Token.number digits).value?.isSome) :
      written ++ .number digits :: awaiting = c.written ++ .number digits :: c.awaiting := by
    obtain ⟨v, hNumber⟩ := Option.isSome_iff_exists.mp hValue
    have hRow : Completes .sentence [.number digits] [.number digits] :=
      (Completes.literal hValue).operand
    have hOrdered : toPostfix [.number digits] = [.number digits] := by
      simp [toPostfix, postfixFrom, hValue, Pending.releaseAll]
    have hTree : (c.fill (.group (.literal digits v))).Fits 1 false :=
      hContext _ (.group (.literal hNumber))
    have hTokens := Phrase.toPostfix_complete_tokens hTree
    rw [Context.tokens_fill, Context.postorder_fill] at hTokens
    have hBoth := (hGroup _ _ hRow).symm.trans hTokens
    rwa [hOrdered] at hBoth
  have hZero : (Token.number ['0']).value?.isSome :=
    value?_isSome_of_digit (by decide) (by simp [IsLiteralChar, Text.isAsciiDigit])
  have hOne : (Token.number ['1']).value?.isSome :=
    value?_isSome_of_digit (by decide) (by simp [IsLiteralChar, Text.isAsciiDigit])
  obtain ⟨rfl, rfl⟩ := eq_of_append_cons_eq (by simp) (hLiteral hZero) (hLiteral hOne)
  exact hGroup inner out h

theorem Completes.toPostfix_ne_nil {form : Form} {row out : List Token}
    (h : Completes form row out) : toPostfix out ≠ [] := by
  intro hNone
  have hPositive := h.positive
  rw [← operandCount_toPostfix, hNone] at hPositive
  cases hPositive

/-- A sentence that comes to a value leaves it on top of any operands, and takes as
many of them as it has operands too few. -/
theorem Completes.exists_taken {inner out : List Token} (h : Completes .sentence inner out)
    {value : Binary64} (hValue : evaluateTokens inner = .ok value) :
    ∃ taken, operatorCount out + 1 = operandCount out + taken ∧ ∀ operands,
      (toPostfix out).foldlM operandStep operands = .ok (value :: operands.drop taken) := by
  have hOrdered : toPostfix (PrefixMinus.complete inner) = toPostfix out := by rw [h.complete_eq]
  rw [evaluateTokens_of_ne_nil (hOrdered ▸ h.toPostfix_ne_nil), hOrdered] at hValue
  obtain ⟨-, taken, hConsumes⟩ := exists_consumes_of_evaluatePostfix hValue
  have hCount := hConsumes.count
  rw [operandCount_toPostfix, operatorCount_toPostfix, List.length_singleton,
    List.length_nil] at hCount
  exact ⟨taken, by omega, hConsumes.run⟩

/-- A group is evaluated in postfix order between what its context writes in front of
it and behind it. -/
theorem evaluateTokens_group_eq {c : Context} (hContext : c.WellFormed)
    {inner out : List Token} (h : Completes .sentence inner out) :
    evaluateTokens (c.before ++ .openParen :: (inner ++ .closeParen :: c.behind)) =
      evaluatePostfix (c.written ++ (toPostfix out ++ c.awaiting)) := by
  have hOrdered := toPostfix_complete_group hContext h
  have hSome : c.written ++ (toPostfix out ++ c.awaiting) ≠ [] := by
    simp [h.toPostfix_ne_nil]
  rw [evaluateTokens_of_ne_nil (hOrdered ▸ hSome), hOrdered]

namespace Context

variable {c : Context} (hContext : c.WellFormed)

include hContext

theorem WellFormed.fill_zero : (c.fill Phrase.zero).Fits 1 false :=
  hContext Phrase.zero (Phrase.fits_zero 4 false)

/-- What stands in front of the position leaves the operands that wait there. -/
theorem WellFormed.foldlM_written : c.written.foldlM operandStep [] = c.lefts := by
  rw [Phrase.foldlM_written hContext.fill_zero]
  cases c.lefts with
  | error fault => rfl
  | ok lefts => exact congrArg Except.ok (List.append_nil lefts)

/-- What puts a value on top of some of the operands that wait for it lets the context
go on outwards with these. -/
theorem WellFormed.foldlM_around {row : List Token} {value : Binary64}
    {kept : List Binary64 → List Binary64}
    (hRow : ∀ lefts, c.lefts = .ok lefts →
      row.foldlM operandStep lefts = .ok (value :: kept lefts)) :
    (c.written ++ (row ++ c.awaiting)).foldlM operandStep [] =
      (c.lefts >>= fun lefts => c.resume value (kept lefts)).map fun left => left.1 :: left.2 := by
  rw [List.foldlM_append, hContext.foldlM_written]
  cases hLefts : c.lefts with
  | error fault => rfl
  | ok lefts =>
      show (row ++ c.awaiting).foldlM operandStep lefts = _
      rw [List.foldlM_append, hRow lefts hLefts]
      exact Phrase.foldlM_awaiting hContext.fill_zero value (kept lefts)

/-- What puts a value on top of all the operands that wait for it comes to what the
context comes to with that value. -/
theorem WellFormed.evaluatePostfix_of_pushes {row : List Token} {value : Binary64}
    (hRow : ∀ lefts, c.lefts = .ok lefts →
      row.foldlM operandStep lefts = .ok (value :: lefts)) :
    evaluatePostfix (c.written ++ (row ++ c.awaiting)) = c.outcome value := by
  have hValue := Phrase.lefts_resume c value []
  simp only [List.append_nil] at hValue
  refine Phrase.evaluatePostfix_of_foldlM ((hContext.foldlM_around hRow).trans ?_)
  rw [hValue, Context.value]
  cases (c.fill (.literal [] value)).value <;> rfl

/-- A context has as many operands as operators, each sign counted with the zero it
subtracts from. -/
theorem WellFormed.operandCount_eq :
    operandCount c.written + operandCount c.awaiting =
      operatorCount c.written + operatorCount c.awaiting := by
  have hCount := Phrase.operandCount_postorder hContext.fill_zero
  have hOrder : Phrase.zero.postorder = [PrefixMinus.zeroLiteral] := rfl
  rw [postorder_fill, hOrder] at hCount
  simp only [operandCount_append, operatorCount_append, operandCount_zeroLiteral,
    operatorCount_zeroLiteral, operandCount_nil, operatorCount_nil] at hCount
  omega

/-- Postfix order brings no operator into a context. -/
theorem WellFormed.mem_of_operator {op : Operator}
    (h : Token.operator op ∈ c.written ++ c.awaiting) :
    Token.operator op ∈ c.before ++ c.behind := by
  have hOrdered : Token.operator op ∈ (c.fill Phrase.zero).postorder := by
    rw [postorder_fill]
    grind
  rw [← Phrase.toPostfix_complete_tokens hContext.fill_zero] at hOrdered
  have hTokens := PrefixMinus.operator_mem_complete (mem_of_mem_toPostfix hOrdered)
  rw [tokens_fill] at hTokens
  simpa [Phrase.zero, Phrase.tokens] using hTokens

/-- A context without percent signs has use for every operand in front of the position,
so what takes one of them stops the evaluation. -/
theorem WellFormed.foldlM_ne_ok (hPercent : Token.operator .percent ∉ c.written ++ c.awaiting)
    (hWritten : c.written ≠ []) {row : List Token} {value : Binary64} {taken : Nat}
    (hTaken : 0 < taken)
    (hRow : ∀ operands, row.foldlM operandStep operands = .ok (value :: operands.drop taken))
    (result : List Binary64) :
    (c.written ++ (row ++ c.awaiting)).foldlM operandStep [] ≠ .ok result := by
  intro hAll
  have hSome : c.written ++ (row ++ c.awaiting) ≠ [] := by simp [hWritten]
  rw [List.mem_append, not_or] at hPercent
  have hResult := List.length_pos_iff.mpr (ne_nil_of_foldlM hSome hAll)
  rw [List.foldlM_append] at hAll
  obtain ⟨below, hFront, hRest⟩ := exists_of_bind_eq_ok hAll
  rw [List.foldlM_append, hRow] at hRest
  have hBelow := List.length_pos_iff.mpr (ne_nil_of_foldlM hWritten hFront)
  have hLength := length_of_foldlM hPercent.1 hFront
  have hLeft := length_of_foldlM hPercent.2 hRest
  have hTree := hContext.operandCount_eq
  simp only [List.length_nil, List.length_cons, List.length_drop] at hLength hLeft
  omega

end Context

/-- A group that takes nothing from below it, or that has nothing below it, is
evaluated in isolation. -/
theorem evaluateTokens_group {c : Context} (hContext : c.WellFormed) {inner out : List Token}
    (h : Completes .sentence inner out) {value : Binary64}
    (hValue : evaluateTokens inner = .ok value)
    (hApart : Derives .sentence inner ∨ c.written = []) :
    evaluateTokens (c.before ++ .openParen :: (inner ++ .closeParen :: c.behind)) =
      c.outcome value := by
  obtain ⟨taken, hCount, hRun⟩ := h.exists_taken hValue
  rw [evaluateTokens_group_eq hContext h]
  refine hContext.evaluatePostfix_of_pushes fun lefts hLefts => ?_
  rw [hRun]
  rcases hApart with hSentence | hFirst
  · have hTree := hSentence.operandCount_complete
    rw [h.complete_eq] at hTree
    obtain rfl : taken = 0 := by omega
    rfl
  · have hNone := hContext.foldlM_written
    rw [hFirst, hLefts] at hNone
    cases hNone
    rw [List.drop_nil]

/-- A group with percent signs on one operand alone takes an operand from below it for
each of them. An operator of its context is left without one, unless a zero divisor is
met before. -/
theorem exists_fault_group {c : Context} (hContext : c.WellFormed) {inner out : List Token}
    (h : Completes .sentence inner out) {value : Binary64}
    (hValue : evaluateTokens inner = .ok value) (hSuffixed : ¬ Derives .sentence inner)
    (hWritten : c.written ≠ []) (hPercent : Token.operator .percent ∉ c.written ++ c.awaiting) :
    ∃ taken fault, 0 < taken ∧ operandCount out + taken = operatorCount out + 1 ∧
      (c.lefts >>= fun lefts => c.resume value (lefts.drop taken)) = .error fault ∧
      evaluateTokens (c.before ++ .openParen :: (inner ++ .closeParen :: c.behind)) =
        .error fault ∧ (fault.IsZeroDivisor ∨ fault = .invalidExpression) := by
  obtain ⟨taken, hCount, hRun⟩ := h.exists_taken hValue
  have hTaken : 0 < taken := by
    apply Nat.pos_of_ne_zero
    intro hNone
    refine hSuffixed (h.derives ?_)
    omega
  have hAround := hContext.foldlM_around fun lefts _ => hRun lefts
  rw [evaluateTokens_group_eq hContext h, evaluatePostfix]
  cases hResume : c.lefts >>= fun lefts => c.resume value (lefts.drop taken) with
  | ok left =>
      rw [hResume] at hAround
      exact absurd hAround (hContext.foldlM_ne_ok hPercent hWritten hTaken hRun _)
  | error fault =>
      rw [hResume] at hAround
      refine ⟨taken, fault, hTaken, hCount.symm, hResume, ?_, fault_of_foldlM hAround⟩
      rw [hAround]
      rfl

/-- A group of any well-formed context, whose own tokens come to a value. What the
context comes to with an operand of that value is what it comes to with the group if
every percent sign of the group has two operands, or if only parentheses stand in front
of the group. Otherwise each percent sign on one operand alone takes the last of the
operands that wait in front of the group. With all of them the context would come to its
value; with those that are left it fails, where it meets a zero divisor or lacks an
operand. -/
theorem exists_context_outcome_group {front inner back digits : List Char} {value : Binary64}
    (hContext : Derives .sentence (Token.ofText front ++ .number digits :: Token.ofText back))
    (hInner : DerivesSuffixed .sentence (Token.ofText inner))
    (hValue : (evaluate inner).outcome = .ok value) :
    ∃ c : Context, c.WellFormed ∧
      c.before = Token.ofText front ∧ c.behind = Token.ofText back ∧
      (∀ (operand : Phrase) (v : Binary64), operand.Fits 4 false → operand.value = .ok v →
        evaluateTokens (Token.ofText front ++ (operand.tokens ++ Token.ofText back)) =
          c.outcome v) ∧
      (∀ v, (c.lefts >>= fun lefts => c.resume v lefts) = (c.value v).map (·, [])) ∧
      (Derives .sentence (Token.ofText inner) ∨
          (∀ token ∈ Token.ofText front, token = .openParen) →
        (evaluate (front ++ '(' :: (inner ++ ')' :: back))).outcome = c.outcome value) ∧
      (¬ Derives .sentence (Token.ofText inner) →
        (∃ token ∈ Token.ofText front, token ≠ .openParen) →
        Token.operator .percent ∉ Token.ofText front ++ Token.ofText back →
        ∃ taken fault, 0 < taken ∧
          operandCount (PrefixMinus.complete (Token.ofText inner)) + taken =
            operatorCount (PrefixMinus.complete (Token.ofText inner)) + 1 ∧
          (c.lefts >>= fun lefts => c.resume value (lefts.drop taken)) = .error fault ∧
          (evaluate (front ++ '(' :: (inner ++ ')' :: back))).outcome = .error fault ∧
          (fault.IsZeroDivisor ∨ fault = .invalidExpression)) := by
  obtain ⟨c, hFits, hBefore, hBehind⟩ := hContext.exists_context
  obtain ⟨out, hCompletes⟩ := hInner.exists_completes
  rw [evaluate_outcome] at hValue
  have hText : Token.ofText (front ++ '(' :: (inner ++ ')' :: back)) =
      c.before ++ .openParen :: (Token.ofText inner ++ .closeParen :: c.behind) := by
    rw [Token.ofText_append_openParen, Token.ofText_append_closeParen, hBefore, hBehind]
  rw [evaluate_outcome, hText, ← hBefore, ← hBehind]
  refine ⟨c, hFits, rfl, rfl, fun operand v hOperand hOperandValue => ?_, fun v => ?_,
    fun hApart => ?_, fun hSuffixed hFront hPercent => ?_⟩
  · rw [← Context.tokens_fill, Phrase.evaluateTokens_tokens (hFits operand hOperand),
      Phrase.outcome_fill c hOperandValue]
  · simpa using Phrase.lefts_resume c v []
  · rw [← Context.written_eq_nil_iff] at hApart
    exact evaluateTokens_group hFits hCompletes hValue hApart
  · have hWritten : c.written ≠ [] := by
      intro hNone
      obtain ⟨token, hMem, hOther⟩ := hFront
      exact hOther (c.written_eq_nil_iff.mp hNone token hMem)
    rw [hCompletes.complete_eq]
    exact exists_fault_group hFits hCompletes hValue hSuffixed hWritten
      fun hMem => hPercent (hFits.mem_of_operator hMem)

/-- The percent sign takes the five, so that the seven is what is divided. -/
example : (evaluate "7+5÷(0%)".toList).fault? = some .divisionByZero := by
  decide +kernel

/-- The group of `2×(7mod4)-1` is an operand of its value. -/
theorem exists_context_outcome_group_modulo :
    ∃ value, Derives .sentence
        (Token.ofText "2×".toList ++ .number ['1'] :: Token.ofText "-1".toList) ∧
      DerivesSuffixed .sentence (Token.ofText "7mod4".toList) ∧
      (evaluate "7mod4".toList).outcome = .ok value ∧
      ∃ c : Context, c.WellFormed ∧
        c.before = Token.ofText "2×".toList ∧ c.behind = Token.ofText "-1".toList ∧
        (evaluate "2×(7mod4)-1".toList).outcome = c.outcome value := by
  have hDigit (c : Char) (h : Text.isAsciiDigit c = true) : (Token.number [c]).value?.isSome :=
    value?_isSome_of_digit h (by simp [IsLiteralChar, h])
  have hContext : Derives .sentence
      (([Token.number ['2']] ++ .operator .multiply :: [.number ['1']]) ++
        .operator .subtract :: [.number ['1']]) :=
    .binary (.binary (.operand (.literal (hDigit '2' (by decide))))
      (.literal (hDigit '1' (by decide)))) (.literal (hDigit '1' (by decide)))
  have hInner : Derives .sentence ([Token.number ['7']] ++ .operator .modulo :: [.number ['4']]) :=
    .binary (.operand (.literal (hDigit '7' (by decide)))) (.literal (hDigit '4' (by decide)))
  have hTokens : Token.ofText "7mod4".toList =
      [Token.number ['7']] ++ .operator .modulo :: [.number ['4']] := by decide
  have hAround : Token.ofText "2×".toList ++ .number ['1'] :: Token.ofText "-1".toList =
      ([Token.number ['2']] ++ .operator .multiply :: [.number ['1']]) ++
        .operator .subtract :: [.number ['1']] := by decide
  have hText : "2×".toList ++ '(' :: ("7mod4".toList ++ ')' :: "-1".toList) =
      "2×(7mod4)-1".toList := by decide
  rw [← hAround] at hContext
  rw [← hTokens] at hInner
  obtain ⟨value, hValue⟩ := Evaluation.exists_outcome
    (show (evaluate "7mod4".toList).value?.isSome = true by decide +kernel)
  obtain ⟨c, hWellFormed, hBefore, hBehind, -, -, hApart, -⟩ :=
    exists_context_outcome_group hContext hInner.derivesSuffixed hValue
  exact ⟨value, hContext, hInner.derivesSuffixed, hValue, c, hWellFormed, hBefore, hBehind,
    hText ▸ hApart (.inl hInner)⟩

/-- The percent sign of `2+(50%)` takes the two as its second operand, and nothing is
left to add. With `0.5`, which the group comes to, in its place there is a sum. -/
theorem outcome_group_takes_operand :
    Derives .sentence (Token.ofText "2+".toList ++ [.number ['0', '.', '5']]) ∧
      DerivesSuffixed .sentence (Token.ofText "50%".toList) ∧
      (evaluate "50%".toList).value?.isSome = true ∧
      (evaluate "50%".toList).value? = (evaluate "0.5".toList).value? ∧
      (evaluate "2+0.5".toList).value?.isSome = true ∧
      (evaluate "2+(50%)".toList).fault? = some .invalidExpression := by
  have hTwo : (Token.number ['2']).value?.isSome :=
    value?_isSome_of_digit (by decide) (by simp [IsLiteralChar, Text.isAsciiDigit])
  have hHalf : (Token.number ['0', '.', '5']).value?.isSome :=
    value?_isSome_of_digit (by decide) (by simp [IsLiteralChar, Text.isAsciiDigit])
  have hFifty : (Token.number ['5', '0']).value?.isSome :=
    value?_isSome_of_digit (by decide) (by simp [IsLiteralChar, Text.isAsciiDigit])
  have hContext : Token.ofText "2+".toList ++ [.number ['0', '.', '5']] =
      [Token.number ['2']] ++ .operator .add :: [.number ['0', '.', '5']] := by decide
  have hInner : Token.ofText "50%".toList =
      [Token.number ['5', '0']] ++ [.operator .percent] := by decide
  refine ⟨?_, ?_, by decide +kernel, by decide +kernel, by decide +kernel, by decide +kernel⟩
  · rw [hContext]
    exact .binary (.operand (.literal hTwo)) (.literal hHalf)
  · rw [hInner]
    exact .suffixed (.operand (.literal hFifty))

end KeypadCalculator
