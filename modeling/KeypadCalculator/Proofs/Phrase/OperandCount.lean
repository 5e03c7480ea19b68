import KeypadCalculator.Proofs.Phrase.Arity
import KeypadCalculator.Proofs.Phrase.Depth

/-!
Operands and operators, counted. The conversion to postfix order permutes what it
keeps, so the counts of a row are those of its postfix order.
-/

namespace KeypadCalculator

def Token.isOperator : Token → Bool
  | .operator _ => true
  | _ => false

/-- The literals of a row that have a value. -/
def operandCount (tokens : List Token) : Nat :=
  tokens.countP (·.value?.isSome)

def operatorCount (tokens : List Token) : Nat :=
  tokens.countP Token.isOperator

section Counts

variable (tokens rest : List Token)

@[simp] theorem operandCount_nil : operandCount [] = 0 := rfl

@[simp] theorem operatorCount_nil : operatorCount [] = 0 := rfl

@[simp] theorem operandCount_append :
    operandCount (tokens ++ rest) = operandCount tokens + operandCount rest :=
  List.countP_append

@[simp] theorem operatorCount_append :
    operatorCount (tokens ++ rest) = operatorCount tokens + operatorCount rest :=
  List.countP_append

@[simp] theorem operandCount_reverse : operandCount tokens.reverse = operandCount tokens :=
  List.countP_reverse

@[simp] theorem operatorCount_reverse : operatorCount tokens.reverse = operatorCount tokens :=
  List.countP_reverse

@[simp] theorem operandCount_operator (op : Operator) :
    operandCount (.operator op :: rest) = operandCount rest := rfl

@[simp] theorem operatorCount_operator (op : Operator) :
    operatorCount (.operator op :: rest) = operatorCount rest + 1 :=
  List.countP_cons_of_pos rfl

@[simp] theorem operandCount_openParen :
    operandCount (.openParen :: rest) = operandCount rest := rfl

@[simp] theorem operatorCount_openParen :
    operatorCount (.openParen :: rest) = operatorCount rest := rfl

@[simp] theorem operandCount_closeParen :
    operandCount (.closeParen :: rest) = operandCount rest := rfl

@[simp] theorem operatorCount_closeParen :
    operatorCount (.closeParen :: rest) = operatorCount rest := rfl

@[simp] theorem operatorCount_number (digits : List Char) :
    operatorCount (.number digits :: rest) = operatorCount rest := rfl

theorem operandCount_number (digits : List Char) :
    operandCount (.number digits :: rest) =
      operandCount rest + (if (Token.number digits).value?.isSome then 1 else 0) :=
  List.countP_cons

@[simp] theorem operandCount_zeroLiteral :
    operandCount (PrefixMinus.zeroLiteral :: rest) = operandCount rest + 1 := by
  have hZero : (Token.number ['0']).value? = some Binary64.zero := Phrase.value?_zeroLiteral
  rw [PrefixMinus.zeroLiteral, operandCount_number, hZero]
  rfl

@[simp] theorem operatorCount_zeroLiteral :
    operatorCount (PrefixMinus.zeroLiteral :: rest) = operatorCount rest := rfl

end Counts

/-- A token that has a place in postfix order. -/
def Token.isOrdered (token : Token) : Bool :=
  token.value?.isSome || token.isOperator

theorem Pending.perm_of_released {released all : List Token} {op : Operator}
    {kept rest : List Token} (h : released ++ kept = all) :
    (released ++ (rest ++ .operator op :: kept)).Perm (.operator op :: (rest ++ all)) := by
  have hMiddle : (released ++ (rest ++ .operator op :: kept)).Perm
      (released ++ (.operator op :: (rest ++ kept))) :=
    List.perm_middle.append_left released
  refine hMiddle.trans (List.perm_middle.trans (.cons _ ?_))
  rw [← h]
  exact List.perm_append_comm_assoc released rest kept

/-- The conversion reorders the operators and the literals with a value, and loses
none of them. -/
theorem postfixFrom_perm (stack : List Pending) (tokens : List Token) :
    (postfixFrom stack tokens).Perm
      (tokens.filter Token.isOrdered ++ Pending.releaseAll stack) := by
  induction tokens generalizing stack with
  | nil => exact .refl _
  | cons token tokens ih =>
      cases token with
      | number digits =>
          rw [postfixFrom]
          split
          · rename_i hValue
            rw [List.filter_cons_of_pos (by simp [Token.isOrdered, hValue])]
            exact (ih stack).cons _
          · rename_i hValue
            rw [List.filter_cons_of_neg (by simp [Token.isOrdered, Token.isOperator, hValue])]
            exact ih stack
      | operator op =>
          rw [postfixFrom, List.filter_cons_of_pos (by simp [Token.isOrdered, Token.isOperator])]
          exact ((ih _).append_left _).trans
            (Pending.perm_of_released (Pending.release_append_releaseAll op stack))
      | openParen => exact ih (.openParen :: stack)
      | closeParen =>
          rw [postfixFrom, List.filter_cons_of_neg (by simp [Token.isOrdered, Token.isOperator,
            Token.value?])]
          refine ((ih _).append_left _).trans ?_
          rw [← Pending.releaseGroup_append_releaseAll stack]
          exact List.perm_append_comm_assoc ..

theorem toPostfix_perm (tokens : List Token) :
    (toPostfix tokens).Perm (tokens.filter Token.isOrdered) := by
  simpa [Pending.releaseAll, toPostfix] using postfixFrom_perm [] tokens

@[simp] theorem operandCount_toPostfix (tokens : List Token) :
    operandCount (toPostfix tokens) = operandCount tokens := by
  rw [operandCount, (toPostfix_perm tokens).countP_eq, List.countP_filter]
  refine List.countP_congr fun token _ => ?_
  simp +contextual [Token.isOrdered]

@[simp] theorem operatorCount_toPostfix (tokens : List Token) :
    operatorCount (toPostfix tokens) = operatorCount tokens := by
  rw [operatorCount, (toPostfix_perm tokens).countP_eq, List.countP_filter]
  refine List.countP_congr fun token _ => ?_
  simp +contextual [Token.isOrdered]

theorem mem_of_mem_toPostfix {tokens : List Token} {token : Token}
    (h : token ∈ toPostfix tokens) : token ∈ tokens :=
  (List.mem_filter.mp ((toPostfix_perm tokens).mem_iff.mp h)).1

namespace PrefixMinus

/-- The pass inserts no operator. -/
theorem operator_mem_step {s : PrefixMinus} {token : Token} {op : Operator}
    (h : Token.operator op ∈ (s.step token).done) :
    Token.operator op ∈ s.done ∨ token = .operator op := by
  obtain ⟨done, depth, waiting⟩ := s
  cases token with
  | number digits =>
      obtain ⟨closes, hDone⟩ := exists_done_close (.number digits :: done) depth waiting
      rw [step, hDone] at h
      simpa using h
  | openParen => exact .inl (by simpa [step] using h)
  | closeParen =>
      obtain ⟨closes, hDone⟩ := exists_done_close (.closeParen :: done) (depth - 1)
        (waiting.filter (· ≤ depth - 1))
      rw [step, hDone] at h
      simpa using h
  | operator other =>
      cases other with
      | subtract =>
          rw [step, minus] at h
          split at h
          · grind [zeroLiteral]
          · grind [zeroLiteral]
          · grind [zeroLiteral]
          · grind
      | _ => grind [step]

theorem operator_mem_complete {tokens : List Token} {op : Operator}
    (h : Token.operator op ∈ complete tokens) : Token.operator op ∈ tokens := by
  have hRun (rest : List Token) (s : PrefixMinus)
      (hMem : Token.operator op ∈ (rest.foldl step s).done) :
      Token.operator op ∈ s.done ∨ Token.operator op ∈ rest := by
    induction rest generalizing s with
    | nil => exact .inl hMem
    | cons token rest ih =>
        rcases ih (s.step token) hMem with hStep | hRest
        · rcases operator_mem_step hStep with hDone | hToken
          · exact .inl hDone
          · exact .inr (hToken ▸ List.mem_cons_self)
        · exact .inr (List.mem_cons_of_mem token hRest)
  rw [complete, List.mem_reverse] at h
  simpa [start] using hRun tokens start h

end PrefixMinus

namespace Phrase

/-- A tree has one operand more than operators, each sign counted with the zero it
subtracts from. -/
theorem operandCount_postorder {level : Nat} {signed : Bool} {tree : Phrase}
    (h : Fits level signed tree) :
    operandCount tree.postorder = operatorCount tree.postorder + 1 := by
  induction h with
  | literal hValue => simp [postorder, operandCount_number, hValue]
  | group _ ih => exact ih
  | negation _ ih | opposite _ ih => simp [postorder, ih]
  | binary _ _ _ ihLeft ihRight =>
      simp only [postorder, operandCount_append, operatorCount_append, operandCount_operator,
        operatorCount_operator, operandCount_nil, operatorCount_nil, ihLeft, ihRight]
      omega

end Phrase

end KeypadCalculator
