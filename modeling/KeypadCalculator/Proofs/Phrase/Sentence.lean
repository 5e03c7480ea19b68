import KeypadCalculator.Keypad.Admission
import KeypadCalculator.Proofs.Phrase.Completion

/-!
Sentences by their shape alone, whether or not their literals have values. The pass over
the minus signs takes a sentence over as one in which every minus sign stands between
two operands.
-/

namespace KeypadCalculator

/-- The rows of tokens of each form. Operands and operators between them take turns, and
a percent sign may also end a sentence that goes on behind it. Minus signs in front of
operands are part of the shape only with `prefixed`. -/
inductive Shaped (prefixed : Bool) : Form → List Token → Prop where
  | literal {signed : Bool} (digits : List Char) :
      Shaped prefixed (.operand signed) [.number digits]
  | group {signed : Bool} {inner : List Token} (hInner : Shaped prefixed .sentence inner) :
      Shaped prefixed (.operand signed) (.openParen :: (inner ++ [.closeParen]))
  | negated {operand : List Token} (hPrefixed : prefixed = true)
      (hOperand : Shaped prefixed (.operand true) operand) :
      Shaped prefixed (.operand true) (.operator .subtract :: operand)
  | operand {operand : List Token} (hOperand : Shaped prefixed (.operand false) operand) :
      Shaped prefixed .sentence operand
  | opposite {operand : List Token} (hPrefixed : prefixed = true)
      (hOperand : Shaped prefixed (.operand true) operand) :
      Shaped prefixed .sentence (.operator .subtract :: operand)
  | binary {left right : List Token} {op : Operator} (hLeft : Shaped prefixed .sentence left)
      (hRight : Shaped prefixed (.operand (op != .percent)) right) :
      Shaped prefixed .sentence (left ++ .operator op :: right)
  | suffixed {left : List Token} (hLeft : Shaped prefixed .sentence left) :
      Shaped prefixed .sentence (left ++ [.operator .percent])

namespace Shaped

/-- A row without a sign in front stands wherever an operand may have one. -/
theorem signed {prefixed : Bool} {row : List Token} (h : Shaped prefixed (.operand false) row)
    (signed : Bool) : Shaped prefixed (.operand signed) row := by
  cases h with
  | literal digits => exact .literal digits
  | group hInner => exact .group hInner

/-- All parentheses of a row are closed in it, and none before it is opened. -/
theorem nested {prefixed : Bool} {form : Form} {row : List Token} (h : Shaped prefixed form row)
    (depth : Nat) : row.foldlM parenStep depth = some depth := by
  induction h generalizing depth with
  | literal digits => rfl
  | group _ ih =>
      change (_ ++ [Token.closeParen]).foldlM parenStep (depth + 1) = some depth
      rw [List.foldlM_append, ih]
      rfl
  | negated _ _ ih => exact ih depth
  | operand _ ih => exact ih depth
  | opposite _ _ ih => exact ih depth
  | binary _ _ ihLeft ihRight =>
      rw [List.foldlM_append, ihLeft]
      exact ihRight depth
  | suffixed _ ih =>
      rw [List.foldlM_append, ih]
      rfl

end Shaped

/-- A row of the form may begin where the pass is. An operand ends the negations in
front of it, a sentence none. -/
def Form.Begins : Form → PrefixMinus → Prop
  | .operand signed, s =>
    (signed = true → ∃ op rest, op ≠ .percent ∧ s.done = .operator op :: rest) ∧
      ∀ d ∈ s.waiting, d ≤ s.depth
  | .sentence, s =>
    (s.done = [] ∨ ∃ rest, s.done = .openParen :: rest) ∧ ∀ d ∈ s.waiting, d < s.depth

namespace PrefixMinus

/-- An operator behind an operand, with or without a percent sign on it, is taken
over as it is. -/
theorem step_operator_suffixed {done : List Token} {last : Token}
    (hLast : Phrase.EndsOperand last ∨ last = .operator .percent)
    (depth : Nat) (waiting : List Nat) (op : Operator) :
    step ⟨last :: done, depth, waiting⟩ (.operator op) =
      ⟨.operator op :: last :: done, depth, waiting⟩ := by
  rcases hLast with hLast | rfl
  · exact step_operator hLast depth waiting op
  · cases op <;> rfl

end PrefixMinus

/-- The pass takes a row of the form over as these tokens, wherever such a row may
begin, and then closes the negations that were waiting for it. -/
structure Takes (form : Form) (row out : List Token) : Prop where
  run {s : PrefixMinus} (hBegins : form.Begins s) :
    row.foldl PrefixMinus.step s = PrefixMinus.close (out.reverse ++ s.done) s.depth s.waiting
  last : ∃ front last, out = front ++ [last] ∧
    (Phrase.EndsOperand last ∨ last = .operator .percent)

namespace Takes

theorem literal {signed : Bool} (digits : List Char) :
    Takes (.operand signed) [.number digits] [.number digits] where
  run _ := rfl
  last := ⟨[], .number digits, rfl, .inl trivial⟩

theorem group {signed : Bool} {inner out : List Token} (h : Takes .sentence inner out) :
    Takes (.operand signed) (.openParen :: (inner ++ [.closeParen]))
      (.openParen :: (out ++ [.closeParen])) where
  run {s} hBegins := by
    have hInner := @h.run ⟨.openParen :: s.done, s.depth + 1, s.waiting⟩
      ⟨.inr ⟨s.done, rfl⟩, fun d hMem => Nat.lt_succ_of_le (hBegins.2 d hMem)⟩
    simpa using PrefixMinus.foldl_step_group hBegins.2 hInner
  last := ⟨.openParen :: out, .closeParen, rfl, .inl trivial⟩

theorem negated {operand out : List Token} (h : Takes (.operand true) operand out) :
    Takes (.operand true) (.operator .subtract :: operand)
      (.openParen :: PrefixMinus.zeroLiteral :: .operator .subtract ::
        (out ++ [.closeParen])) where
  run {s} hBegins := by
    obtain ⟨done, depth, waiting⟩ := s
    obtain ⟨hDone, hWaiting⟩ := hBegins
    obtain ⟨op, rest, hOp, rfl⟩ := hDone rfl
    have hOperand := @h.run ⟨.operator .subtract :: PrefixMinus.zeroLiteral :: .openParen ::
        .operator op :: rest, depth + 1, (depth + 1) :: waiting⟩
      ⟨fun _ => ⟨.subtract, _, by decide, rfl⟩, List.forall_mem_cons.mpr
        ⟨Nat.le_refl _, fun d hMem => Nat.le_succ_of_le (hWaiting d hMem)⟩⟩
    rw [List.foldl_cons, PrefixMinus.step_negation hOp, hOperand, PrefixMinus.close, if_pos rfl]
    simp
  last := ⟨.openParen :: (PrefixMinus.zeroLiteral :: .operator .subtract :: out), .closeParen,
    rfl, .inl trivial⟩

theorem operand {operand out : List Token} (h : Takes (.operand false) operand out) :
    Takes .sentence operand out where
  run hBegins := h.run ⟨nofun, fun d hMem => Nat.le_of_lt (hBegins.2 d hMem)⟩
  last := h.last

theorem opposite {operand out : List Token} (h : Takes (.operand true) operand out) :
    Takes .sentence (.operator .subtract :: operand)
      (PrefixMinus.zeroLiteral :: .operator .subtract :: out) where
  run {s} hBegins := by
    obtain ⟨done, depth, waiting⟩ := s
    have hStep : PrefixMinus.step ⟨done, depth, waiting⟩ (.operator .subtract) =
        ⟨.operator .subtract :: PrefixMinus.zeroLiteral :: done, depth, waiting⟩ := by
      rcases hBegins.1 with hDone | ⟨rest, hDone⟩
      · obtain rfl : done = [] := hDone
        rfl
      · obtain rfl : done = .openParen :: rest := hDone
        rfl
    have hOperand := @h.run ⟨.operator .subtract :: PrefixMinus.zeroLiteral :: done, depth, waiting⟩
      ⟨fun _ => ⟨.subtract, _, by decide, rfl⟩, fun d hMem => Nat.le_of_lt (hBegins.2 d hMem)⟩
    rw [List.foldl_cons, hStep, hOperand]
    simp
  last := by
    obtain ⟨front, last, rfl, hLast⟩ := h.last
    exact ⟨PrefixMinus.zeroLiteral :: .operator .subtract :: front, last, rfl, hLast⟩

/-- The pass takes an operator over behind a sentence. -/
theorem foldl_step_operator {left out : List Token} (h : Takes .sentence left out)
    {s : PrefixMinus} (hBegins : Form.sentence.Begins s) (op : Operator) :
    (left ++ [Token.operator op]).foldl PrefixMinus.step s =
      ⟨.operator op :: (out.reverse ++ s.done), s.depth, s.waiting⟩ := by
  have hLeft := h.run hBegins
  obtain ⟨front, last, rfl, hLast⟩ := h.last
  rw [PrefixMinus.close_of_lt hBegins.2] at hLeft
  simp [hLeft, PrefixMinus.step_operator_suffixed hLast]

theorem binary {left right outLeft outRight : List Token} {op : Operator}
    (hLeft : Takes .sentence left outLeft)
    (hRight : Takes (.operand (op != .percent)) right outRight) :
    Takes .sentence (left ++ .operator op :: right) (outLeft ++ .operator op :: outRight) where
  run {s} hBegins := by
    have hOperand := @hRight.run ⟨.operator op :: (outLeft.reverse ++ s.done), s.depth, s.waiting⟩
      ⟨fun hOp => ⟨op, _, by simpa using hOp, rfl⟩, fun d hMem => Nat.le_of_lt (hBegins.2 d hMem)⟩
    rw [List.append_cons, List.foldl_append,
      hLeft.foldl_step_operator hBegins, hOperand]
    simp
  last := by
    obtain ⟨front, last, rfl, hLast⟩ := hRight.last
    exact ⟨outLeft ++ .operator op :: front, last, by simp, hLast⟩

theorem suffixed {left out : List Token} (h : Takes .sentence left out) :
    Takes .sentence (left ++ [.operator .percent]) (out ++ [.operator .percent]) where
  run {s} hBegins := by
    rw [h.foldl_step_operator hBegins, PrefixMinus.close_of_lt hBegins.2]
    simp
  last := ⟨out, .operator .percent, rfl, .inr rfl⟩

theorem complete_eq {row out : List Token} (h : Takes .sentence row out) :
    PrefixMinus.complete row = out := by
  have hRun := @h.run PrefixMinus.start ⟨.inl rfl, by simp [PrefixMinus.start]⟩
  rw [PrefixMinus.complete, hRun]
  simp [PrefixMinus.start, PrefixMinus.close]

end Takes

/-- The form without signs in front. -/
def Form.unsigned : Form → Form
  | .operand _ => .operand false
  | .sentence => .sentence

/-- The pass takes a row over as one of the same form without minus signs in front of
operands. -/
theorem Shaped.exists_takes {form : Form} {row : List Token} (h : Shaped true form row) :
    ∃ out, Takes form row out ∧ Shaped false form.unsigned out := by
  have hZero : Shaped false .sentence [PrefixMinus.zeroLiteral] := .operand (.literal ['0'])
  induction h with
  | literal digits => exact ⟨_, .literal digits, .literal digits⟩
  | group _ ih =>
      obtain ⟨out, hTakes, hShaped⟩ := ih
      exact ⟨_, hTakes.group, .group hShaped⟩
  | negated _ _ ih =>
      obtain ⟨out, hTakes, hShaped⟩ := ih
      exact ⟨_, hTakes.negated, .group (hZero.binary (hShaped.signed _))⟩
  | operand _ ih =>
      obtain ⟨out, hTakes, hShaped⟩ := ih
      exact ⟨_, hTakes.operand, .operand hShaped⟩
  | opposite _ _ ih =>
      obtain ⟨out, hTakes, hShaped⟩ := ih
      exact ⟨_, hTakes.opposite, hZero.binary (hShaped.signed _)⟩
  | binary _ _ ihLeft ihRight =>
      obtain ⟨outLeft, hLeft, hLeftShaped⟩ := ihLeft
      obtain ⟨outRight, hRight, hRightShaped⟩ := ihRight
      exact ⟨_, hLeft.binary hRight, hLeftShaped.binary (hRightShaped.signed _)⟩
  | suffixed _ ih =>
      obtain ⟨out, hTakes, hShaped⟩ := ih
      exact ⟨_, hTakes.suffixed, hShaped.suffixed⟩

/-- What the pass makes of a sentence is a sentence without minus signs in front of
operands. -/
theorem Shaped.complete {row : List Token} (h : Shaped true .sentence row) :
    Shaped false .sentence (PrefixMinus.complete row) := by
  obtain ⟨out, hTakes, hShaped⟩ := h.exists_takes
  rw [hTakes.complete_eq]
  exact hShaped

end KeypadCalculator
