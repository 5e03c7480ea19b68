import KeypadCalculator.Proofs.Keypad.StrictTyping

/-!
The well-formed expressions that a keypad is made for, and their endings.
-/

namespace KeypadCalculator

open Text

inductive Part where
  | operand
  | sentence

/-- The well-formed expressions, as they are typed. -/
inductive Spells : Part → List Char → Prop where
  | whole {digits : List Char} (hDigits : digits ≠ [])
      (hAscii : ∀ c ∈ digits, isAsciiDigit c = true) : Spells .operand digits
  | decimal {digits fraction : List Char} (hDigits : digits ≠ [])
      (hAscii : ∀ c ∈ digits ++ fraction, isAsciiDigit c = true) :
      Spells .operand (digits ++ '.' :: fraction)
  | group {inner : List Char} (hInner : Spells .sentence inner) :
      Spells .operand ('(' :: inner ++ [')'])
  | operand {text : List Char} (hText : Spells .operand text) : Spells .sentence text
  | signed {text : List Char} (hText : Spells .operand text) : Spells .sentence ('-' :: text)
  | binary {left right : List Char} (op : Operator) (hLeft : Spells .sentence left)
      (hRight : Spells .operand right) : Spells .sentence (left ++ op.symbol ++ right)
  | moduloNegative {left right : List Char} (hLeft : Spells .sentence left)
      (hRight : Spells .operand right) :
      Spells .sentence (left ++ Operator.modulo.symbol ++ '-' :: right)

theorem Spells.digit {c : Char} (h : isAsciiDigit c = true) : Spells .operand [c] :=
  .whole (by simp) (by simp [h])

theorem Spells.digits_point {c d : Char} (hC : isAsciiDigit c = true)
    (hD : isAsciiDigit d = true) : Spells .operand [c, '.', d] :=
  @Spells.decimal [c] [d] (by simp) (by simp [hC, hD])

namespace Ending

theorem next?_of_isAsciiDigit {e : Ending} {c : Char} (h : isAsciiDigit c = true) :
    e.next? c = e.move? .digit := by
  have hLetter : e.letter? c = none := by
    simp [letter?, ne_of_isAsciiDigit h (show isAsciiDigit 'm' = false by decide),
      ne_of_isAsciiDigit h (show isAsciiDigit 'o' = false by decide),
      ne_of_isAsciiDigit h (show isAsciiDigit 'd' = false by decide)]
  rw [next?, ofText_of_isAsciiDigit h, hLetter, Option.or_none]

/-- Digits keep to the part of the number that they are typed in. -/
theorem run_digits {e : Ending} (h : e.move? .digit = some e) {digits : List Char}
    (hAscii : ∀ c ∈ digits, isAsciiDigit c = true) : digits.foldlM next? e = some e := by
  induction digits with
  | nil => rfl
  | cons c digits ih =>
      rw [List.foldlM_cons, next?_of_isAsciiDigit (hAscii c List.mem_cons_self), h]
      exact ih fun d hMem => hAscii d (List.mem_cons_of_mem _ hMem)

theorem run_whole {e : Ending} (h : e.awaitsOperand = true) {digits : List Char}
    (hDigits : digits ≠ []) (hAscii : ∀ c ∈ digits, isAsciiDigit c = true) :
    digits.foldlM next? e = some .whole := by
  cases digits with
  | nil => exact absurd rfl hDigits
  | cons c digits =>
      have hFirst : e.move? .digit = some .whole := by
        cases e <;> first | rfl | cases h
      rw [List.foldlM_cons, next?_of_isAsciiDigit (hAscii c List.mem_cons_self), hFirst]
      exact run_digits rfl fun d hMem => hAscii d (List.mem_cons_of_mem _ hMem)

theorem run_fraction {digits : List Char} (hAscii : ∀ c ∈ digits, isAsciiDigit c = true) :
    ∃ last, digits.foldlM next? .point = some last ∧ last.endsOperand = true := by
  cases digits with
  | nil => exact ⟨.point, rfl, rfl⟩
  | cons c digits =>
      refine ⟨.fraction, ?_, rfl⟩
      rw [List.foldlM_cons, next?_of_isAsciiDigit (hAscii c List.mem_cons_self)]
      exact run_digits rfl fun d hMem => hAscii d (List.mem_cons_of_mem _ hMem)

theorem run_symbol {e : Ending} (h : e.endsOperand = true) (op : Operator) :
    ∃ next, op.symbol.foldlM next? e = some next ∧ next.awaitsOperand = true := by
  cases op <;> cases e <;> first | exact ⟨_, rfl, rfl⟩ | cases h

theorem run_append {e middle : Ending} {front : List Char}
    (h : front.foldlM next? e = some middle) (rest : List Char) :
    (front ++ rest).foldlM next? e = rest.foldlM next? middle := by
  rw [List.foldlM_append, h]
  rfl

end Ending

/-- Where a part of an expression may begin. -/
def Part.Begins : Part → Ending → Prop
  | .operand, e => e.awaitsOperand = true
  | .sentence, e => e = .opened

theorem Spells.exists_run {part : Part} {text : List Char} (h : Spells part text) {e : Ending}
    (hBegins : part.Begins e) :
    ∃ last, text.foldlM Ending.next? e = some last ∧ last.endsOperand = true := by
  induction h generalizing e with
  | whole hDigits hAscii => exact ⟨.whole, Ending.run_whole hBegins hDigits hAscii, rfl⟩
  | @decimal digits fraction hDigits hAscii =>
      have hWhole := Ending.run_whole hBegins hDigits fun c hMem =>
        hAscii c (List.mem_append_left _ hMem)
      rw [Ending.run_append hWhole]
      exact Ending.run_fraction fun c hMem => hAscii c (List.mem_append_right _ hMem)
  | group hInner ih =>
      obtain ⟨last, hRun, hEnds⟩ := ih rfl
      have hOpen : e.next? '(' = some .opened := by
        cases e <;> first | rfl | cases hBegins
      refine ⟨.closed, ?_, rfl⟩
      rw [List.cons_append, List.foldlM_cons, hOpen]
      refine (Ending.run_append hRun _).trans ?_
      cases last <;> first | rfl | cases hEnds
  | operand hText ih =>
      obtain rfl : e = .opened := hBegins
      exact ih rfl
  | signed hText ih =>
      obtain rfl : e = .opened := hBegins
      have hOperator : Part.operand.Begins .operator := rfl
      exact ih hOperator
  | binary op hLeft hRight ihLeft ihRight =>
      obtain ⟨left, hLeftRun, hLeftEnds⟩ := ihLeft hBegins
      obtain ⟨middle, hSymbol, hAwaits⟩ := Ending.run_symbol hLeftEnds op
      rw [List.append_assoc, Ending.run_append hLeftRun, Ending.run_append hSymbol]
      exact ihRight hAwaits
  | moduloNegative hLeft hRight ihLeft ihRight =>
      obtain ⟨left, hLeftRun, hLeftEnds⟩ := ihLeft hBegins
      have hSymbol : Operator.modulo.symbol.foldlM Ending.next? left = some .modulo := by
        cases left <;> first | rfl | cases hLeftEnds
      rw [List.append_assoc, Ending.run_append hLeftRun, Ending.run_append hSymbol]
      have hOperator : Part.operand.Begins .operator := rfl
      exact ihRight hOperator

end KeypadCalculator
