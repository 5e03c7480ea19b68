import KeypadCalculator.Proofs.Phrase.Postorder

/-!
Expressions with the position of one operand left open. What surrounds the position
is known in each order of the tokens, and only the value of the operand counts for
what the whole comes to.
-/

namespace KeypadCalculator

/-- An operator between the next of the operands on its left and the one on its right,
and the operands that it leaves. Only the percent sign does without the former. -/
def Operator.takeLeft (op : Operator) (b : Binary64) :
    List Binary64 → Except Fault (Binary64 × List Binary64)
  | a :: rest => (op.apply a b).map (·, rest)
  | [] => if op = .percent then .ok (hundredth b, []) else .error .invalidExpression

/-- A syntax tree with one operand left out. -/
inductive Context where
  | hole
  | group (inner : Context)
  | negation (operand : Context)
  | opposite (operand : Context)
  | binaryLeft (op : Operator) (left : Context) (right : Phrase)
  | binaryRight (op : Operator) (left : Phrase) (right : Context)

namespace Context

def fill : Context → Phrase → Phrase
  | hole, operand => operand
  | group inner, operand => .group (inner.fill operand)
  | negation inner, operand => .negation (inner.fill operand)
  | opposite inner, operand => .opposite (inner.fill operand)
  | binaryLeft op left right, operand => .binary op (left.fill operand) right
  | binaryRight op left right, operand => .binary op left (right.fill operand)

/-- The tokens in front of the position. -/
def before : Context → List Token
  | hole => []
  | group inner => .openParen :: inner.before
  | negation inner | opposite inner => .operator .subtract :: inner.before
  | binaryLeft _ left _ => left.before
  | binaryRight op left right => left.tokens ++ .operator op :: right.before

/-- The tokens behind the position. -/
def behind : Context → List Token
  | hole => []
  | group inner => inner.behind ++ [.closeParen]
  | negation inner | opposite inner => inner.behind
  | binaryLeft op left right => left.behind ++ .operator op :: right.tokens
  | binaryRight _ _ right => right.behind

/-- What stands in front of the operand in postfix order. -/
def written : Context → List Token
  | hole => []
  | group inner => inner.written
  | negation inner | opposite inner => PrefixMinus.zeroLiteral :: inner.written
  | binaryLeft _ left _ => left.written
  | binaryRight _ left right => left.postorder ++ right.written

/-- What stands behind the operand in postfix order. -/
def awaiting : Context → List Token
  | hole => []
  | group inner => inner.awaiting
  | negation inner | opposite inner => inner.awaiting ++ [.operator .subtract]
  | binaryLeft op left right => left.awaiting ++ (right.postorder ++ [.operator op])
  | binaryRight op _ right => right.awaiting ++ [.operator op]

/-- The value of the tree with a number of this value at the position. -/
def value (c : Context) (operand : Binary64) : Except Fault Binary64 :=
  (c.fill (.literal [] operand)).value

/-- What the tree comes to with a number of this value at the position. -/
def outcome (c : Context) (operand : Binary64) : Except Fault Binary64 :=
  (c.fill (.literal [] operand)).outcome

/-- The operands in front of the position that wait for the one there, the last of them
first. A sign waits with the zero that it subtracts from. -/
def lefts : Context → Except Fault (List Binary64)
  | hole => .ok []
  | group inner => inner.lefts
  | negation inner | opposite inner => return (← inner.lefts) ++ [Binary64.zero]
  | binaryLeft _ left _ => left.lefts
  | binaryRight _ left right => do
    let a ← left.value
    return (← right.lefts) ++ [a]

/-- What the tree comes to from the value at the position outwards, where an operator
behind its left operand takes the next of those given. The rest of them is left. -/
def resume (v : Binary64) (operands : List Binary64) :
    Context → Except Fault (Binary64 × List Binary64)
  | hole => .ok (v, operands)
  | group inner => inner.resume v operands
  | negation inner | opposite inner => do
    let right ← inner.resume v operands
    Operator.subtract.takeLeft right.1 right.2
  | binaryLeft op left right => do
    let left ← left.resume v operands
    let b ← right.value
    op.takeLeft b (left.1 :: left.2)
  | binaryRight op _ right => do
    let right ← right.resume v operands
    op.takeLeft right.1 right.2

/-- With any operand at the position the tree is a sentence. -/
def WellFormed (c : Context) : Prop :=
  ∀ operand : Phrase, operand.Fits 4 false → (c.fill operand).Fits 1 false

theorem tokens_fill (c : Context) (operand : Phrase) :
    (c.fill operand).tokens = c.before ++ (operand.tokens ++ c.behind) := by
  induction c with
  | hole => simp [fill, before, behind]
  | group inner ih | negation inner ih | opposite inner ih
  | binaryLeft op left right ih | binaryRight op left right ih =>
      simp [fill, before, behind, Phrase.tokens, ih]

theorem postorder_fill (c : Context) (operand : Phrase) :
    (c.fill operand).postorder = c.written ++ (operand.postorder ++ c.awaiting) := by
  induction c with
  | hole => simp [fill, written, awaiting]
  | group inner ih | negation inner ih | opposite inner ih
  | binaryLeft op left right ih | binaryRight op left right ih =>
      simp [fill, written, awaiting, Phrase.postorder, ih]

/-- Only parentheses in front of the position leave nothing in front of it in postfix
order. -/
theorem written_eq_nil_iff (c : Context) :
    c.written = [] ↔ ∀ token ∈ c.before, token = .openParen := by
  induction c with
  | hole => simp [written, before]
  | group inner ih => simpa [written, before] using ih
  | negation inner _ => simp [written, before]
  | opposite inner _ => simp [written, before]
  | binaryLeft op left right ih => exact ih
  | binaryRight op left right _ =>
      refine ⟨fun h => ?_, fun h => ?_⟩
      · exact absurd (List.append_eq_nil_iff.mp h).1 (Phrase.postorder_ne_nil left)
      · have hOp := h (.operator op) (by simp [before])
        cases hOp

end Context

namespace Phrase

/-- What may stand as an operand behind anything may stand anywhere. -/
theorem Fits.operand {operand : Phrase} (h : Fits 4 false operand) (level : Nat)
    (signed : Bool) : Fits level signed operand := by
  cases h with
  | literal hValue => exact .literal hValue
  | group hInner => exact .group hInner
  | @binary _ _ op _ _ hLevel _ _ => cases op <;> exact absurd hLevel (by decide)

/-- Any operand may take the place of another. -/
theorem Fits.refill {level : Nat} {signed : Bool} {c : Context} {first second : Phrase}
    (h : Fits level signed (c.fill first)) (hSecond : Fits 4 false second) :
    Fits level signed (c.fill second) := by
  induction c generalizing level signed with
  | hole => exact hSecond.operand level signed
  | group inner ih =>
      cases h with
      | group hInner => exact .group (ih hInner)
  | negation inner ih =>
      cases h with
      | negation hInner => exact .negation (ih hInner)
  | opposite inner ih =>
      cases h with
      | opposite hInner => exact .opposite (ih hInner)
  | binaryLeft op left right ih =>
      cases h with
      | binary hLevel hLeft hRight => exact .binary hLevel (ih hLeft) hRight
  | binaryRight op left right ih =>
      cases h with
      | binary hLevel hLeft hRight => exact .binary hLevel hLeft (ih hRight)

/-- Of an operand only its value counts. -/
theorem value_fill (c : Context) {operand : Phrase} {v : Binary64} (h : operand.value = .ok v) :
    (c.fill operand).value = c.value v := by
  induction c with
  | hole => exact h
  | group inner ih => exact ih
  | negation inner ih | opposite inner ih | binaryLeft op inner right ih
  | binaryRight op left inner ih =>
      simp only [Context.fill, Context.value, value] at ih ⊢
      rw [ih]

/-- Of an operand only its value counts for what the tree comes to. -/
theorem outcome_fill (c : Context) {operand : Phrase} {v : Binary64} (h : operand.value = .ok v) :
    (c.fill operand).outcome = c.outcome v := by
  have hValue := value_fill c h
  rw [Context.value] at hValue
  rw [outcome, hValue, Context.outcome, outcome]

theorem operandStep_takeLeft (op : Operator) (b : Binary64) (operands : List Binary64) :
    operandStep (b :: operands) (.operator op) =
      (op.takeLeft b operands).map fun left => left.1 :: left.2 := by
  cases operands with
  | nil => cases op <;> rfl
  | cons a rest =>
      rw [operandStep_operator, Operator.takeLeft]
      cases op.apply a b <;> rfl

/-- What puts an operand on top, and then the operands that wait behind it, puts these on
top of it. -/
theorem foldlM_waiting {left right : List Token} {a : Except Fault Binary64}
    {lefts : Except Fault (List Binary64)} {operands : List Binary64}
    (hLeft : left.foldlM operandStep operands = a.map (· :: operands))
    (hRight : ∀ operands, right.foldlM operandStep operands = lefts.map (· ++ operands)) :
    (left ++ right).foldlM operandStep operands =
      (a >>= fun a => lefts >>= fun lefts => pure (lefts ++ [a])).map (· ++ operands) := by
  rw [List.foldlM_append, hLeft]
  cases a with
  | error fault => rfl
  | ok a =>
      refine (hRight (a :: operands)).trans ?_
      cases lefts with
      | error fault => rfl
      | ok lefts => exact congrArg Except.ok (List.append_cons lefts a operands)

/-- Evaluating what stands in front of the position puts the operands that wait there on
top of those below. -/
theorem foldlM_written {level : Nat} {signed : Bool} {c : Context} {operand : Phrase}
    (h : Fits level signed (c.fill operand)) (operands : List Binary64) :
    c.written.foldlM operandStep operands = c.lefts.map (· ++ operands) := by
  have hZero := foldlM_literal value?_zeroLiteral
  induction c generalizing level signed operands with
  | hole => rfl
  | group inner ih =>
      cases h with
      | group hInner => exact ih hInner operands
  | negation inner ih =>
      cases h with
      | negation hInner => exact foldlM_waiting (hZero operands) (ih hInner)
  | opposite inner ih =>
      cases h with
      | opposite hInner => exact foldlM_waiting (hZero operands) (ih hInner)
  | binaryLeft op left right ih =>
      cases h with
      | binary _ hLeft _ => exact ih hLeft operands
  | binaryRight op left right ih =>
      cases h with
      | binary _ hLeft hRight =>
          exact foldlM_waiting (foldlM_postorder hLeft operands) (ih hRight)

/-- An operator behind what leaves its right operand on top takes the next one below. -/
theorem foldlM_takeLeft {row : List Token} {operands : List Binary64}
    {right : Except Fault (Binary64 × List Binary64)}
    (h : row.foldlM operandStep operands = right.map fun right => right.1 :: right.2)
    (op : Operator) :
    (row ++ [Token.operator op]).foldlM operandStep operands =
      (right >>= fun right => op.takeLeft right.1 right.2).map
        fun left => left.1 :: left.2 := by
  rw [List.foldlM_append, h]
  cases right with
  | error fault => rfl
  | ok right =>
      simp only [List.foldlM_cons, List.foldlM_nil, bind_pure]
      exact operandStep_takeLeft op right.1 right.2

/-- Evaluating what stands behind the position goes on outwards from the value there. -/
theorem foldlM_awaiting {level : Nat} {signed : Bool} {c : Context} {operand : Phrase}
    (h : Fits level signed (c.fill operand)) (v : Binary64) (operands : List Binary64) :
    c.awaiting.foldlM operandStep (v :: operands) =
      (c.resume v operands).map fun left => left.1 :: left.2 := by
  induction c generalizing level signed with
  | hole => rfl
  | group inner ih =>
      cases h with
      | group hInner => exact ih hInner
  | negation inner ih =>
      cases h with
      | negation hInner => exact foldlM_takeLeft (ih hInner) .subtract
  | opposite inner ih =>
      cases h with
      | opposite hInner => exact foldlM_takeLeft (ih hInner) .subtract
  | binaryLeft op left right ih =>
      cases h with
      | binary _ hLeft hRight =>
          rw [Context.awaiting, ← List.append_assoc, Context.resume]
          have hBoth : (left.awaiting ++ right.postorder).foldlM operandStep (v :: operands) =
              (left.resume v operands >>= fun left => right.value >>= fun b =>
                pure (b, left.1 :: left.2)).map fun right => right.1 :: right.2 := by
            rw [List.foldlM_append, ih hLeft]
            cases left.resume v operands with
            | error fault => rfl
            | ok left =>
                refine (foldlM_postorder hRight _).trans ?_
                cases right.value <;> rfl
          rw [foldlM_takeLeft hBoth op]
          simp only [bind_assoc, pure_bind]
  | binaryRight op left right ih =>
      cases h with
      | binary _ _ hRight => exact foldlM_takeLeft (ih hRight) op

/-- An operator takes the operand that waits next for what is on its right. -/
theorem bind_takeLeft {lefts : Except Fault (List Binary64)} {b : Except Fault Binary64}
    (resume : List Binary64 → Except Fault (Binary64 × List Binary64)) {a : Binary64}
    {operands : List Binary64}
    (h : (lefts >>= fun lefts => resume (lefts ++ a :: operands)) = b.map (·, a :: operands))
    (op : Operator) :
    ((lefts >>= fun lefts => pure (lefts ++ [a])) >>= fun lefts =>
        resume (lefts ++ operands) >>= fun right => op.takeLeft right.1 right.2) =
      (b >>= fun b => op.apply a b).map (·, operands) := by
  simp only [bind_assoc, pure_bind, List.append_assoc, List.singleton_append]
  rw [← bind_assoc, h]
  cases b <;> rfl

/-- With all operands that wait for it, the value at the position comes to the value of
the tree. -/
theorem lefts_resume (c : Context) (v : Binary64) (operands : List Binary64) :
    (c.lefts >>= fun lefts => c.resume v (lefts ++ operands)) =
      (c.value v).map (·, operands) := by
  induction c generalizing operands with
  | hole => rfl
  | group inner ih => exact ih operands
  | negation inner ih | opposite inner ih =>
      exact bind_takeLeft (inner.resume v) (ih (Binary64.zero :: operands)) .subtract
  | binaryLeft op left right ih =>
      have hValue : (Context.binaryLeft op left right).value v =
          (left.value v >>= fun a => right.value >>= fun b => op.apply a b) := rfl
      simp only [Context.lefts, Context.resume]
      rw [← bind_assoc, ih, hValue]
      cases left.value v with
      | error fault => rfl
      | ok a =>
          cases right.value with
          | error fault => rfl
          | ok b => rfl
  | binaryRight op left right ih =>
      have hValue : (Context.binaryRight op left right).value v =
          (left.value >>= fun a => right.value v >>= fun b => op.apply a b) := rfl
      rw [hValue, Context.lefts, bind_assoc]
      cases left.value with
      | error fault => rfl
      | ok a => exact bind_takeLeft (right.resume v) (ih (a :: operands)) op

/-- A member of two lists in a row is in the first of them or in the second. -/
theorem exists_of_append_eq {α : Type} {left right front back : List α} {a : α}
    (h : left ++ right = front ++ a :: back) :
    (∃ rest, left = front ++ a :: rest ∧ back = rest ++ right) ∨
      ∃ rest, front = left ++ rest ∧ right = rest ++ a :: back := by
  rcases List.append_eq_append_iff.mp h with ⟨rest, hFront, hRight⟩ | ⟨rest, hLeft, hBack⟩
  · exact .inr ⟨rest, hFront, hRight⟩
  · cases rest with
    | nil => exact .inr ⟨[], by simpa using hLeft.symm, by simpa using hBack.symm⟩
    | cons first rest =>
        obtain ⟨rfl, rfl⟩ := List.cons.inj hBack
        exact .inl ⟨rest, hLeft, rfl⟩

/-- Around each literal of a tree is a context. -/
theorem exists_context {tree : Phrase} {front back : List Token} {digits : List Char}
    (h : tree.tokens = front ++ .number digits :: back) :
    ∃ (c : Context) (v : Binary64),
      tree = c.fill (.literal digits v) ∧ c.before = front ∧ c.behind = back := by
  induction tree generalizing front back with
  | literal other v =>
      obtain ⟨rfl, rfl, rfl⟩ : front = [] ∧ other = digits ∧ back = [] := by
        cases front <;> simp_all [tokens]
      exact ⟨.hole, v, rfl, rfl, rfl⟩
  | group inner ih =>
      cases front with
      | nil => cases h
      | cons first front =>
          obtain ⟨rfl, hInner⟩ := List.cons.inj h
          rcases exists_of_append_eq hInner with ⟨rest, hTokens, rfl⟩ | ⟨rest, rfl, hClose⟩
          · obtain ⟨c, v, rfl, rfl, rfl⟩ := ih hTokens
            exact ⟨.group c, v, rfl, rfl, rfl⟩
          · cases rest <;> simp at hClose
  | negation operand ih =>
      cases front with
      | nil => cases h
      | cons first front =>
          obtain ⟨rfl, hOperand⟩ := List.cons.inj h
          obtain ⟨c, v, rfl, rfl, rfl⟩ := ih hOperand
          exact ⟨.negation c, v, rfl, rfl, rfl⟩
  | opposite operand ih =>
      cases front with
      | nil => cases h
      | cons first front =>
          obtain ⟨rfl, hOperand⟩ := List.cons.inj h
          obtain ⟨c, v, rfl, rfl, rfl⟩ := ih hOperand
          exact ⟨.opposite c, v, rfl, rfl, rfl⟩
  | binary op left right ihLeft ihRight =>
      rcases exists_of_append_eq h with ⟨rest, hLeft, rfl⟩ | ⟨rest, rfl, hRight⟩
      · obtain ⟨c, v, rfl, rfl, rfl⟩ := ihLeft hLeft
        exact ⟨.binaryLeft op c right, v, rfl, rfl, rfl⟩
      · cases rest with
        | nil => cases hRight
        | cons first rest =>
            obtain ⟨rfl, hTokens⟩ := List.cons.inj hRight
            obtain ⟨c, v, rfl, rfl, rfl⟩ := ihRight hTokens
            exact ⟨.binaryRight op left c, v, rfl, rfl, rfl⟩

end Phrase

/-- The tokens around a literal of a sentence are those around the position of a
context. -/
theorem Derives.exists_context {front back : List Token} {digits : List Char}
    (h : Derives .sentence (front ++ .number digits :: back)) :
    ∃ c : Context, c.WellFormed ∧ c.before = front ∧ c.behind = back := by
  obtain ⟨tree, hTree, hTokens⟩ := h.exists_phrase
  obtain ⟨c, v, rfl, hBefore, hBehind⟩ := Phrase.exists_context hTokens
  exact ⟨c, fun operand hOperand => hTree.refill hOperand, hBefore, hBehind⟩

end KeypadCalculator
