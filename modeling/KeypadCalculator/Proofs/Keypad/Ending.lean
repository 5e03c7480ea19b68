import KeypadCalculator.Keypad.Admission
import KeypadCalculator.Proofs.Token.Characters

/-!
How a typed expression ends. Reading an expression character by character leads
through the endings below, and what may follow it depends on its ending alone.
Taking a character off leads back to the ending before it.
-/

namespace KeypadCalculator

open Text

namespace Continuation

/-- The characters of each kind. -/
inductive Reads : Char → Continuation → Prop where
  | digit {c : Char} (h : isAsciiDigit c = true) : Reads c .digit
  | decimal : Reads '.' .decimal
  | minus : Reads '-' .minus
  | openParen : Reads '(' .openParen
  | closeParen : Reads ')' .closeParen
  | operator {c : Char} {op : Operator} (h : Operator.ofChar? c = some op)
      (hMinus : op ≠ .subtract) : Reads c .operator
  | other {c : Char} (hDigit : isAsciiDigit c = false) (hOperator : isOperatorChar c = false) :
      Reads c .other

theorem reads_ofText (c : Char) : Reads c (ofText [c]) := by
  rw [ofText]
  split
  · rename_i hMinus
    exact hMinus ▸ .minus
  · rename_i hMinus
    split
    · rename_i hPoint
      exact hPoint ▸ .decimal
    · split
      · rename_i hOpen
        exact hOpen ▸ .openParen
      · split
        · rename_i hClose
          exact hClose ▸ .closeParen
        · split
          · rename_i hDigit
            exact .digit hDigit
          · rename_i hDigit
            split
            · rename_i hOperator
              obtain ⟨op, hOp⟩ := Option.isSome_iff_exists.mp hOperator
              refine .operator hOp ?_
              rintro rfl
              exact hMinus (List.cons.inj (Operator.symbol_of_ofChar? hOp)).1.symm
            · rename_i hOperator
              exact .other (by simpa using hDigit) (by simpa using hOperator)

end Continuation

/-- How an expression ends. The letters of the modulo operator are endings of
their own, as they are taken off one by one. -/
inductive Ending where
  /-- Nothing is typed yet, or an open parenthesis stands last. -/
  | opened
  /-- An operator of one character. -/
  | operator
  | letterM
  | lettersMo
  | modulo
  | whole
  | point
  | fraction
  | closed
  deriving DecidableEq, Repr

namespace Ending

def awaitsOperand : Ending → Bool
  | .opened | .operator | .modulo => true
  | _ => false

def endsOperand : Ending → Bool
  | .whole | .point | .fraction | .closed => true
  | _ => false

/-- A minus sign stands at the start, behind an open parenthesis and behind the
modulo operator. Behind an operator character it would take its place. -/
def takesSign : Ending → Bool
  | .opened | .modulo => true
  | _ => false

/-- The ending behind a character that is a key of its own. -/
def move? (e : Ending) : Continuation → Option Ending
  | .digit => match e with
    | .opened | .operator | .modulo | .whole => some .whole
    | .point | .fraction => some .fraction
    | _ => none
  | .decimal => if e = .whole then some .point else none
  | .openParen => if e.awaitsOperand then some .opened else none
  | .closeParen => if e.endsOperand then some .closed else none
  | .operator => if e.endsOperand then some .operator else none
  | .minus => if e.endsOperand || e.takesSign then some .operator else none
  | .other => none

/-- The ending behind a letter of the modulo operator. -/
def letter? (e : Ending) (c : Char) : Option Ending :=
  if e.endsOperand ∧ c = 'm' then some .letterM
  else if e = .letterM ∧ c = 'o' then some .lettersMo
  else if e = .lettersMo ∧ c = 'd' then some .modulo
  else none

/-- The ending behind one more character, if it may stand there. -/
def next? (e : Ending) (c : Char) : Option Ending :=
  (e.move? (.ofText [c])).or (e.letter? c)

/-- The ending of an expression, if strict input can have typed it. -/
def of? (text : List Char) : Option Ending :=
  text.foldlM next? .opened

theorem of?_append {text : List Char} {e : Ending} (h : of? text = some e) (rest : List Char) :
    of? (text ++ rest) = rest.foldlM next? e := by
  rw [of?, List.foldlM_append, ← of?, h]
  rfl

/-- A character that is read was read behind an expression that is read. -/
theorem exists_of_append_singleton {text : List Char} {c : Char} {e : Ending}
    (h : of? (text ++ [c]) = some e) : ∃ front, of? text = some front ∧ front.next? c = some e := by
  rw [of?, List.foldlM_append, ← of?] at h
  obtain ⟨front, hFront, hNext⟩ := Option.bind_eq_some_iff.mp h
  exact ⟨front, hFront, by simpa using hNext⟩

/-- The characters that stand last at an ending. -/
def EndsWith : Ending → Char → Prop
  | .opened, c => c = '('
  | .operator, c => isOperatorChar c = true
  | .letterM, c => c = 'm'
  | .lettersMo, c => c = 'o'
  | .modulo, c => c = 'd'
  | .whole, c | .fraction, c => isAsciiDigit c = true
  | .point, c => c = '.'
  | .closed, c => c = ')'

/-- The letters of the modulo operator that are typed so far. -/
def letters : Ending → List Char
  | .letterM => ['m']
  | .lettersMo => ['m', 'o']
  | .modulo => ['m', 'o', 'd']
  | _ => []

/-- The number at the end has a point. -/
def isDecimal : Ending → Bool
  | .point | .fraction => true
  | _ => false

/-- All that one more character can do to an ending. -/
inductive Moves : Ending → Char → Ending → Prop where
  | digit {e next : Ending} {c : Char} (hDigit : isAsciiDigit c = true)
      (hMove : e.move? .digit = some next) : Moves e c next
  | decimal : Moves .whole '.' .point
  | minus {e : Ending} (hFront : (e.endsOperand || e.takesSign) = true) : Moves e '-' .operator
  | operator {e : Ending} {c : Char} {op : Operator} (hOp : Operator.ofChar? c = some op)
      (hMinus : op ≠ .subtract) (hEnds : e.endsOperand = true) : Moves e c .operator
  | openParen {e : Ending} (hAwaits : e.awaitsOperand = true) : Moves e '(' .opened
  | closeParen {e : Ending} (hEnds : e.endsOperand = true) : Moves e ')' .closed
  | letterM {e : Ending} (hEnds : e.endsOperand = true) : Moves e 'm' .letterM
  | lettersMo : Moves .letterM 'o' .lettersMo
  | modulo : Moves .lettersMo 'd' .modulo

theorem moves_of_move? {e next : Ending} {c : Char} {kind : Continuation}
    (hReads : Continuation.Reads c kind) (h : e.move? kind = some next) : Moves e c next := by
  cases hReads with
  | digit hDigit => exact .digit hDigit h
  | decimal =>
      cases e <;> cases h
      exact .decimal
  | minus => cases e <;> cases h <;> exact .minus rfl
  | openParen => cases e <;> cases h <;> exact .openParen rfl
  | closeParen => cases e <;> cases h <;> exact .closeParen rfl
  | operator hOp hMinus => cases e <;> cases h <;> exact .operator hOp hMinus rfl
  | other => cases h

theorem moves_of_letter? {e next : Ending} {c : Char} (h : e.letter? c = some next) :
    Moves e c next := by
  rw [letter?] at h
  split at h
  · rename_i hM
    cases h
    exact hM.2 ▸ .letterM hM.1
  · split at h
    · rename_i hO
      cases h
      exact hO.1 ▸ hO.2 ▸ .lettersMo
    · split at h
      · rename_i hD
        cases h
        exact hD.1 ▸ hD.2 ▸ .modulo
      · cases h

theorem moves_of_next? {e next : Ending} {c : Char} (h : e.next? c = some next) :
    Moves e c next := by
  rcases Option.or_eq_some_iff.mp h with hMove | ⟨-, hLetter⟩
  · exact moves_of_move? (Continuation.reads_ofText c) hMove
  · exact moves_of_letter? hLetter

theorem next?_letterM {next : Ending} {c : Char} (h : letterM.next? c = some next) :
    c = 'o' ∧ next = .lettersMo := by
  cases moves_of_next? h with
  | lettersMo => exact ⟨rfl, rfl⟩
  | digit _ hMove => cases hMove
  | minus hFront | openParen hFront | closeParen hFront | letterM hFront => cases hFront
  | operator _ _ hFront => cases hFront

theorem next?_lettersMo {next : Ending} {c : Char} (h : lettersMo.next? c = some next) :
    c = 'd' ∧ next = .modulo := by
  cases moves_of_next? h with
  | modulo => exact ⟨rfl, rfl⟩
  | digit _ hMove => cases hMove
  | minus hFront | openParen hFront | closeParen hFront | letterM hFront => cases hFront
  | operator _ _ hFront => cases hFront

theorem run_modulo {e last : Ending} {rest : List Char}
    (h : ('m' :: 'o' :: 'd' :: rest).foldlM next? e = some last) :
    e.endsOperand = true ∧ rest.foldlM next? .modulo = some last := by
  cases e <;> first | exact ⟨rfl, h⟩ | cases h

/-- Behind the letter `m`, nothing stands but what is left of the modulo
operator. -/
theorem run_letterM {last : Ending} {rest : List Char} (h : rest.foldlM next? .letterM = some last)
    (hModulo : ∀ tail, rest ≠ 'o' :: 'd' :: tail) :
    (rest = [] ∨ rest = ['o']) ∧ last.awaitsOperand = false := by
  match rest with
  | [] => exact ⟨.inl rfl, Option.some.inj h ▸ rfl⟩
  | c :: rest =>
      rw [List.foldlM_cons] at h
      obtain ⟨next, hNext, hRest⟩ := Option.bind_eq_some_iff.mp h
      obtain ⟨rfl, rfl⟩ := next?_letterM hNext
      match rest with
      | [] => exact ⟨.inr rfl, Option.some.inj hRest ▸ rfl⟩
      | d :: tail =>
          rw [List.foldlM_cons] at hRest
          obtain ⟨next, hNext, -⟩ := Option.bind_eq_some_iff.mp hRest
          obtain ⟨rfl, -⟩ := next?_lettersMo hNext
          exact absurd rfl (hModulo tail)

theorem endsWith_of_next? {e next : Ending} {c : Char} (h : e.next? c = some next) :
    next.EndsWith c := by
  cases moves_of_next? h with
  | digit hDigit hMove => cases e <;> cases hMove <;> exact hDigit
  | operator hOp _ _ => simp [EndsWith, isOperatorChar, hOp]
  | _ => rfl

/-- The letters are typed one behind the other. -/
theorem letters_of_next? {e next : Ending} {c : Char} (h : e.next? c = some next) :
    next.letters = [] ∨ next.letters = e.letters ++ [c] := by
  cases moves_of_next? h with
  | digit _ hMove => cases e <;> cases hMove <;> exact .inl rfl
  | letterM hEnds => cases e <;> first | exact .inr rfl | cases hEnds
  | lettersMo | modulo => exact .inr rfl
  | _ => exact .inl rfl

/-- What an ending says about the characters in front of it. -/
structure Shows (e : Ending) (text : List Char) : Prop where
  last : (text = [] ∧ e = .opened) ∨ ∃ front c, text = front ++ [c] ∧ e.EndsWith c
  letters : e.letters <:+ text
  decimals : endsWithDecimals text = e.isDecimal

theorem endsWithDecimals_append_digit {c : Char} (h : isAsciiDigit c = true) (text : List Char) :
    endsWithDecimals (text ++ [c]) = endsWithDecimals text := by
  rw [endsWithDecimals, List.reverse_append, List.reverse_singleton, List.singleton_append,
    List.dropWhile_cons_of_pos (isDecimalDigit_of_isAsciiDigit h), ← endsWithDecimals]

/-- Behind anything but a digit or a point there is no number. -/
theorem endsWithDecimals_append_other {c : Char} (hDigit : isDecimalDigit c = false)
    (hPoint : c ≠ '.') (text : List Char) : endsWithDecimals (text ++ [c]) = false := by
  rw [endsWithDecimals, List.reverse_append, List.reverse_singleton, List.singleton_append,
    List.dropWhile_cons_of_neg (by simp [hDigit])]
  split
  · rename_i hEq
    exact absurd (List.cons.inj hEq).1 hPoint
  · rfl

theorem endsWithDecimals_append_point {c : Char} (h : isAsciiDigit c = true) (text : List Char) :
    endsWithDecimals (text ++ [c] ++ ['.']) = true := by
  have hPoint : isDecimalDigit '.' = false := by decide
  simp [endsWithDecimals, hPoint, isDecimalDigit_of_isAsciiDigit h]

theorem Shows.decimals_next {e next : Ending} {text : List Char} {c : Char} (h : e.Shows text)
    (hNext : e.next? c = some next) : endsWithDecimals (text ++ [c]) = next.isDecimal := by
  cases moves_of_next? hNext with
  | digit hDigit hMove =>
      rw [endsWithDecimals_append_digit hDigit, h.decimals]
      cases e <;> cases hMove <;> rfl
  | decimal =>
      rcases h.last with ⟨-, hOpened⟩ | ⟨front, d, rfl, hDigit⟩
      · cases hOpened
      · exact endsWithDecimals_append_point hDigit front
  | operator hOp _ _ =>
      obtain ⟨hDigit, hPoint⟩ := not_number_of_isOperatorChar
        (show isOperatorChar c = true by rw [isOperatorChar, hOp]; rfl)
      exact endsWithDecimals_append_other hDigit hPoint text
  | _ => exact endsWithDecimals_append_other (by decide) (by decide) text

theorem Shows.next {e next : Ending} {text : List Char} {c : Char} (h : e.Shows text)
    (hNext : e.next? c = some next) : next.Shows (text ++ [c]) := by
  refine ⟨.inr ⟨text, c, rfl, endsWith_of_next? hNext⟩, ?_, h.decimals_next hNext⟩
  rcases letters_of_next? hNext with hLetters | hLetters
  · rw [hLetters]
    exact List.nil_suffix
  · obtain ⟨front, hFront⟩ := h.letters
    rw [hLetters, ← hFront, List.append_assoc]
    exact List.suffix_append front _

theorem Shows.run {e last : Ending} {front rest : List Char} (h : e.Shows front)
    (hRun : rest.foldlM next? e = some last) : last.Shows (front ++ rest) := by
  induction rest generalizing e front with
  | nil =>
      obtain rfl : e = last := Option.some.inj hRun
      rwa [List.append_nil]
  | cons c rest ih =>
      rw [List.foldlM_cons] at hRun
      obtain ⟨next, hNext, hRest⟩ := Option.bind_eq_some_iff.mp hRun
      have hShows := ih (h.next hNext) hRest
      rwa [List.append_assoc, List.singleton_append] at hShows

theorem shows_of? {text : List Char} {e : Ending} (h : of? text = some e) : e.Shows text := by
  have hStart : opened.Shows [] := ⟨.inl ⟨rfl, rfl⟩, List.nil_suffix, rfl⟩
  simpa using hStart.run h

end Ending

end KeypadCalculator
