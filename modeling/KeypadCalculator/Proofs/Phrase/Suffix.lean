import KeypadCalculator.Proofs.Phrase.OperandStack
import KeypadCalculator.Proofs.Phrase.Sentence

/-!
Sentences with percent signs that have one operand alone. Such a sign has no tree:
how many operands it takes is decided by what is below them when it is evaluated.
What the pass over the minus signs makes of a sentence is known all the same, and
so is the number of its operands.
-/

namespace KeypadCalculator

/-- The rows of tokens of each form, where the percent sign may also end a
sentence. -/
inductive DerivesSuffixed : Form → List Token → Prop where
  | literal {signed : Bool} {digits : List Char}
      (hValue : (Token.number digits).value?.isSome) :
      DerivesSuffixed (.operand signed) [.number digits]
  | group {signed : Bool} {inner : List Token} (hInner : DerivesSuffixed .sentence inner) :
      DerivesSuffixed (.operand signed) (.openParen :: (inner ++ [.closeParen]))
  | negated {operand : List Token} (hOperand : DerivesSuffixed (.operand true) operand) :
      DerivesSuffixed (.operand true) (.operator .subtract :: operand)
  | operand {operand : List Token} (hOperand : DerivesSuffixed (.operand false) operand) :
      DerivesSuffixed .sentence operand
  | opposite {operand : List Token} (hOperand : DerivesSuffixed (.operand true) operand) :
      DerivesSuffixed .sentence (.operator .subtract :: operand)
  | binary {left right : List Token} {op : Operator} (hLeft : DerivesSuffixed .sentence left)
      (hRight : DerivesSuffixed (.operand (op != .percent)) right) :
      DerivesSuffixed .sentence (left ++ .operator op :: right)
  | suffixed {left : List Token} (hLeft : DerivesSuffixed .sentence left) :
      DerivesSuffixed .sentence (left ++ [.operator .percent])

theorem Derives.derivesSuffixed {form : Form} {row : List Token} (h : Derives form row) :
    DerivesSuffixed form row := by
  induction h with
  | literal hValue => exact .literal hValue
  | group _ ih => exact .group ih
  | negated _ ih => exact .negated ih
  | operand _ ih => exact .operand ih
  | opposite _ ih => exact .opposite ih
  | binary _ _ ihLeft ihRight => exact .binary ihLeft ihRight

/-- The pass takes a row of the form over as these tokens. They balance, and they
hold as many operands as the operators need only if no percent sign is on one operand
alone. -/
structure Completes (form : Form) (row out : List Token) : Prop where
  run {s : PrefixMinus} (hBegins : form.Begins s) :
    row.foldl PrefixMinus.step s = PrefixMinus.close (out.reverse ++ s.done) s.depth s.waiting
  last : ∃ front last, out = front ++ [last] ∧
    (Phrase.EndsOperand last ∨ last = .operator .percent)
  nested (depth : Nat) : out.foldlM parenStep depth = some depth
  positive : 0 < operandCount out
  bounded : operandCount out ≤ operatorCount out + 1
  derives : operandCount out = operatorCount out + 1 → Derives form row

namespace Completes

theorem takes {form : Form} {row out : List Token} (h : Completes form row out) :
    Takes form row out :=
  ⟨h.run, h.last⟩

theorem literal {signed : Bool} {digits : List Char}
    (hValue : (Token.number digits).value?.isSome) :
    Completes (.operand signed) [.number digits] [.number digits] where
  run := (Takes.literal digits).run
  last := (@Takes.literal signed digits).last
  nested _ := rfl
  positive := by simp [operandCount_number, hValue]
  bounded := by simp [operandCount_number, hValue]
  derives _ := .literal hValue

theorem group {signed : Bool} {inner out : List Token} (h : Completes .sentence inner out) :
    Completes (.operand signed) (.openParen :: (inner ++ [.closeParen]))
      (.openParen :: (out ++ [.closeParen])) where
  run := h.takes.group.run
  last := (@Takes.group signed _ _ h.takes).last
  nested depth := by
    change (out ++ [Token.closeParen]).foldlM parenStep (depth + 1) = _
    rw [List.foldlM_append, h.nested]
    rfl
  positive := by simpa using h.positive
  bounded := by simpa using h.bounded
  derives hCount := .group (h.derives (by simpa using hCount))

theorem negated {operand out : List Token} (h : Completes (.operand true) operand out) :
    Completes (.operand true) (.operator .subtract :: operand)
      (.openParen :: PrefixMinus.zeroLiteral :: .operator .subtract ::
        (out ++ [.closeParen])) where
  run := h.takes.negated.run
  last := h.takes.negated.last
  nested depth := by
    change (out ++ [Token.closeParen]).foldlM parenStep (depth + 1) = _
    rw [List.foldlM_append, h.nested]
    rfl
  positive := by simp
  bounded := by simpa using h.bounded
  derives hCount := .negated (h.derives (by simpa using hCount))

theorem operand {operand out : List Token} (h : Completes (.operand false) operand out) :
    Completes .sentence operand out where
  run := h.takes.operand.run
  last := h.takes.operand.last
  nested := h.nested
  positive := h.positive
  bounded := h.bounded
  derives hCount := .operand (h.derives hCount)

theorem opposite {operand out : List Token} (h : Completes (.operand true) operand out) :
    Completes .sentence (.operator .subtract :: operand)
      (PrefixMinus.zeroLiteral :: .operator .subtract :: out) where
  run := h.takes.opposite.run
  last := h.takes.opposite.last
  nested := h.nested
  positive := by simp
  bounded := by simpa using h.bounded
  derives hCount := .opposite (h.derives (by simpa using hCount))

theorem binary {left right outLeft outRight : List Token} {op : Operator}
    (hLeft : Completes .sentence left outLeft)
    (hRight : Completes (.operand (op != .percent)) right outRight) :
    Completes .sentence (left ++ .operator op :: right) (outLeft ++ .operator op :: outRight) where
  run := (hLeft.takes.binary hRight.takes).run
  last := (hLeft.takes.binary hRight.takes).last
  nested depth := by
    rw [List.foldlM_append, hLeft.nested]
    exact hRight.nested depth
  positive := by
    rw [operandCount_append]
    exact Nat.add_pos_left hLeft.positive _
  bounded := by
    have hLeftCount := hLeft.bounded
    have hRightCount := hRight.bounded
    simp only [operandCount_append, operatorCount_append, operandCount_operator,
      operatorCount_operator]
    omega
  derives hCount := by
    have hLeftCount := hLeft.bounded
    have hRightCount := hRight.bounded
    simp only [operandCount_append, operatorCount_append, operandCount_operator,
      operatorCount_operator] at hCount
    exact .binary (hLeft.derives (by omega)) (hRight.derives (by omega))

/-- A percent sign on one operand is an operator that brings none. -/
theorem suffixed {left out : List Token} (h : Completes .sentence left out) :
    Completes .sentence (left ++ [.operator .percent]) (out ++ [.operator .percent]) where
  run := h.takes.suffixed.run
  last := h.takes.suffixed.last
  nested depth := by
    rw [List.foldlM_append, h.nested]
    rfl
  positive := by
    rw [operandCount_append]
    exact Nat.add_pos_left h.positive _
  bounded := by
    have hCount := h.bounded
    simp only [operandCount_append, operatorCount_append, operandCount_operator,
      operatorCount_operator, operandCount_nil, operatorCount_nil]
    omega
  derives hCount := by
    have hBound := h.bounded
    simp only [operandCount_append, operatorCount_append, operandCount_operator,
      operatorCount_operator, operandCount_nil, operatorCount_nil] at hCount
    omega

end Completes

/-- What the pass makes of every form is known. -/
theorem DerivesSuffixed.exists_completes {form : Form} {row : List Token}
    (h : DerivesSuffixed form row) : ∃ out, Completes form row out := by
  induction h with
  | literal hValue => exact ⟨_, .literal hValue⟩
  | group _ ih =>
      obtain ⟨out, hInner⟩ := ih
      exact ⟨_, hInner.group⟩
  | negated _ ih =>
      obtain ⟨out, hOperand⟩ := ih
      exact ⟨_, hOperand.negated⟩
  | operand _ ih =>
      obtain ⟨out, hOperand⟩ := ih
      exact ⟨_, hOperand.operand⟩
  | opposite _ ih =>
      obtain ⟨out, hOperand⟩ := ih
      exact ⟨_, hOperand.opposite⟩
  | binary _ _ ihLeft ihRight =>
      obtain ⟨outLeft, hLeft⟩ := ihLeft
      obtain ⟨outRight, hRight⟩ := ihRight
      exact ⟨_, hLeft.binary hRight⟩
  | suffixed _ ih =>
      obtain ⟨out, hLeft⟩ := ih
      exact ⟨_, hLeft.suffixed⟩

/-- What the pass makes of a sentence where every percent sign has two operands. -/
theorem Derives.operandCount_complete {row : List Token} (h : Derives .sentence row) :
    operandCount (PrefixMinus.complete row) = operatorCount (PrefixMinus.complete row) + 1 := by
  obtain ⟨tree, hTree, rfl⟩ := h.exists_phrase
  rw [← operandCount_toPostfix, ← operatorCount_toPostfix, Phrase.toPostfix_complete_tokens hTree]
  exact Phrase.operandCount_postorder hTree

theorem Completes.complete_eq {row out : List Token} (h : Completes .sentence row out) :
    PrefixMinus.complete row = out :=
  h.takes.complete_eq

end KeypadCalculator
