import KeypadCalculator.Evaluation

/-!
Well-formed expressions, as rows of tokens and as trees.

`Derives` is the flat grammar: operands and operators take turns, and nothing
in it says how tightly an operator binds. A `Phrase` is a syntax tree, and
`Phrase.Fits` its shape under the levels of the operators. Every derived row of
tokens is the row of a tree of that shape.
-/

namespace KeypadCalculator

/-- The level of an operator in the grammar. Those of a higher level take their operands
first, and those of one level group to the left. -/
def Operator.level : Operator → Nat
  | .add | .subtract => 1
  | .multiply | .divide => 2
  | .modulo | .percent => 3

theorem Operator.precedence_eq_level (op : Operator) : op.precedence = op.level := by
  cases op <;> rfl

/-- What a row of tokens stands for. A signed operand may have minus signs in
front of it. -/
inductive Form where
  | operand (signed : Bool)
  | sentence
  deriving DecidableEq, Repr

/-- The rows of tokens of each form. A minus sign at the front of a sentence is
the subtraction from zero; directly after an operator it belongs to the operand
that follows. The percent sign ends an operand, so nothing after it is
signed. -/
inductive Derives : Form → List Token → Prop where
  | literal {signed : Bool} {digits : List Char}
      (hValue : (Token.number digits).value?.isSome) :
      Derives (.operand signed) [.number digits]
  | group {signed : Bool} {inner : List Token} (hInner : Derives .sentence inner) :
      Derives (.operand signed) (.openParen :: (inner ++ [.closeParen]))
  | negated {operand : List Token} (hOperand : Derives (.operand true) operand) :
      Derives (.operand true) (.operator .subtract :: operand)
  | operand {operand : List Token} (hOperand : Derives (.operand false) operand) :
      Derives .sentence operand
  | opposite {operand : List Token} (hOperand : Derives (.operand true) operand) :
      Derives .sentence (.operator .subtract :: operand)
  | binary {left right : List Token} {op : Operator} (hLeft : Derives .sentence left)
      (hRight : Derives (.operand (op != .percent)) right) :
      Derives .sentence (left ++ .operator op :: right)

/-- A syntax tree. A negation is the minus sign of a signed operand, and an
opposite the one at the front of a sentence. A literal carries its value. -/
inductive Phrase where
  | literal (digits : List Char) (value : Binary64)
  | group (inner : Phrase)
  | negation (operand : Phrase)
  | opposite (operand : Phrase)
  | binary (op : Operator) (left right : Phrase)

namespace Phrase

/-- The tokens of a tree, in the order in which they are read. -/
def tokens : Phrase → List Token
  | literal digits _ => [.number digits]
  | group inner => .openParen :: (inner.tokens ++ [.closeParen])
  | negation operand => .operator .subtract :: operand.tokens
  | opposite operand => .operator .subtract :: operand.tokens
  | binary op left right => left.tokens ++ .operator op :: right.tokens

/-- The value of a tree. Operands come from the left to the right, and the
first operation that fails decides the fault. -/
def value : Phrase → Except Fault Binary64
  | literal _ value => .ok value
  | group inner => inner.value
  | negation operand | opposite operand => do
    return Binary64.zero.sub (← operand.value)
  | binary op left right => do
    let a ← left.value
    let b ← right.value
    op.apply a b

/-- The value of a tree that is the whole expression. It has to be finite,
whatever became of the numbers on the way. -/
def outcome (phrase : Phrase) : Except Fault Binary64 := do
  let value ← phrase.value
  if value.isFinite then .ok value else .error .notFinite

/-- The tree may stand where only operators of `level` and above are expected
outside of parentheses, with a signed operand in front of it if `signed` is set.
Operators of one level group to the left. -/
inductive Fits : Nat → Bool → Phrase → Prop where
  | literal {level : Nat} {signed : Bool} {digits : List Char} {value : Binary64}
      (hValue : (Token.number digits).value? = some value) :
      Fits level signed (.literal digits value)
  | group {level : Nat} {signed : Bool} {inner : Phrase} (hInner : Fits 1 false inner) :
      Fits level signed (.group inner)
  | negation {level : Nat} {operand : Phrase} (hOperand : Fits 4 true operand) :
      Fits level true (.negation operand)
  | opposite {operand : Phrase} (hOperand : Fits 2 true operand) :
      Fits 1 false (.opposite operand)
  | binary {level : Nat} {signed : Bool} {op : Operator} {left right : Phrase}
      (hLevel : level ≤ op.level) (hLeft : Fits op.level signed left)
      (hRight : Fits (op.level + 1) (op != .percent) right) :
      Fits level signed (.binary op left right)

/-- The tree with one more operator and operand behind it. The operator takes
as much on its left as binds at least as tightly as it does. -/
def extend (op : Operator) (right : Phrase) : Phrase → Phrase
  | opposite operand =>
    if 1 < op.level then opposite (extend op right operand)
    else binary op (opposite operand) right
  | binary top left inner =>
    if top.level < op.level then binary top left (extend op right inner)
    else binary op (binary top left inner) right
  | left => binary op left right

theorem tokens_extend (op : Operator) (right phrase : Phrase) :
    (extend op right phrase).tokens = phrase.tokens ++ .operator op :: right.tokens := by
  induction phrase with
  | literal digits value => rfl
  | group inner _ => rfl
  | negation operand _ => rfl
  | opposite operand ih =>
      rw [extend]
      split
      · simp [tokens, ih]
      · rfl
  | binary top left inner _ ihInner =>
      rw [extend]
      split
      · simp [tokens, ihInner]
      · rfl

/-- A tree that fits at a level fits at every level from there down to one that
does not allow more in front. -/
theorem Fits.mono {level lower : Nat} {signed : Bool} {phrase : Phrase}
    (h : Fits level signed phrase) (hLower : lower ≤ level) (hPositive : 1 ≤ lower) :
    Fits lower signed phrase := by
  cases h with
  | literal hValue => exact .literal hValue
  | group hInner => exact .group hInner
  | negation hOperand => exact .negation hOperand
  | opposite hOperand =>
      obtain rfl : lower = 1 := Nat.le_antisymm hLower hPositive
      exact .opposite hOperand
  | binary hLevel hLeft hRight => exact .binary (Nat.le_trans hLower hLevel) hLeft hRight

theorem one_le_level (op : Operator) : 1 ≤ op.level := by
  cases op <;> decide

/-- Extending keeps the shape. The operand must fit at the tightest level, so
that it may stand behind any operator. -/
theorem Fits.extend {level : Nat} {signed : Bool} {phrase right : Phrase} {op : Operator}
    (h : Fits level signed phrase) (hLevel : level ≤ op.level)
    (hRight : Fits 4 (op != .percent) right) :
    Fits level signed (extend op right phrase) := by
  have hOperand : Fits (op.level + 1) (op != .percent) right :=
    hRight.mono (by cases op <;> decide) (Nat.le_add_left 1 _)
  induction h with
  | literal hValue => exact .binary hLevel (.literal hValue) hOperand
  | group hInner _ => exact .binary hLevel (.group hInner) hOperand
  | negation hNegated _ => exact .binary hLevel (.negation hNegated) hOperand
  | opposite hOpposite ih =>
      rw [Phrase.extend]
      split
      · rename_i hTighter
        exact .opposite (ih hTighter)
      · rename_i hLooser
        have hOne : op.level = 1 :=
          Nat.le_antisymm (Nat.le_of_not_lt hLooser) (one_le_level op)
        exact .binary hLevel (hOne ▸ .opposite hOpposite) hOperand
  | @binary level signed top left inner hTop hLeft hInner _ ihInner =>
      rw [Phrase.extend]
      split
      · rename_i hTighter
        exact .binary hTop hLeft (ihInner hTighter)
      · rename_i hLooser
        exact .binary hLevel
          (.binary (Nat.le_of_not_lt hLooser) hLeft hInner) hOperand

/-- What may stand directly behind a tree of a level: the end, a closing
parenthesis, or an operator that binds no more tightly than the level. -/
inductive Follows (level : Nat) : List Token → Prop where
  | finish : Follows level []
  | close (rest : List Token) : Follows level (.closeParen :: rest)
  | operator {op : Operator} (hOp : op.level ≤ level) (rest : List Token) :
      Follows level (.operator op :: rest)

theorem Follows.mono {level upper : Nat} {rest : List Token} (h : Follows level rest)
    (hUpper : level ≤ upper) : Follows upper rest := by
  cases h with
  | finish => exact .finish
  | close rest => exact .close rest
  | operator hOp rest => exact .operator (Nat.le_trans hOp hUpper) rest

/-- Only a sentence as a whole, or a signed operand, begins with a minus
sign. -/
theorem Fits.head_ne_subtract {level : Nat} {phrase : Phrase} (h : Fits level false phrase)
    (hLevel : 2 ≤ level) (rest : List Token) :
    (phrase.tokens ++ rest).head? ≠ some (.operator .subtract) := by
  generalize hSigned : false = signed at h
  induction h generalizing rest with
  | literal _ => simp [tokens]
  | group _ _ => simp [tokens]
  | negation _ _ => cases hSigned
  | opposite _ _ => exact absurd hLevel (by decide)
  | binary hTop _ _ ihLeft _ =>
      rw [tokens, List.append_assoc]
      exact ihLeft (Nat.le_trans hLevel hTop) _ hSigned

/-- The trees of each form. -/
def Matches (phrase : Phrase) : Form → Prop
  | .operand signed => Fits 4 signed phrase
  | .sentence => Fits 1 false phrase

end Phrase

/-- Every derived row of tokens has a tree of the right shape. -/
theorem Derives.exists_phrase {form : Form} {tokens : List Token} (h : Derives form tokens) :
    ∃ phrase : Phrase, phrase.Matches form ∧ phrase.tokens = tokens := by
  induction h with
  | @literal signed digits hValue =>
      obtain ⟨value, hValue⟩ := Option.isSome_iff_exists.mp hValue
      exact ⟨.literal digits value, Phrase.Fits.literal hValue, rfl⟩
  | group _ ih =>
      obtain ⟨inner, hInner, rfl⟩ := ih
      exact ⟨.group inner, Phrase.Fits.group hInner, rfl⟩
  | negated _ ih =>
      obtain ⟨operand, hOperand, rfl⟩ := ih
      exact ⟨.negation operand, Phrase.Fits.negation hOperand, rfl⟩
  | operand _ ih =>
      obtain ⟨operand, hOperand, rfl⟩ := ih
      exact ⟨operand, Phrase.Fits.mono hOperand (by decide) (by decide), rfl⟩
  | opposite _ ih =>
      obtain ⟨operand, hOperand, rfl⟩ := ih
      exact ⟨.opposite operand,
        Phrase.Fits.opposite (Phrase.Fits.mono hOperand (by decide) (by decide)), rfl⟩
  | @binary left right op _ _ ihLeft ihRight =>
      obtain ⟨phrase, hPhrase, rfl⟩ := ihLeft
      obtain ⟨operand, hOperand, rfl⟩ := ihRight
      exact ⟨.extend op operand phrase,
        Phrase.Fits.extend hPhrase (Phrase.one_le_level op) hOperand,
        Phrase.tokens_extend op operand phrase⟩

end KeypadCalculator
