import KeypadCalculator.Proofs.Phrase.Depth
import KeypadCalculator.Proofs.Phrase.Sentence

/-!
What the pass over the minus signs does to any row of tokens, well-formed or not. It
inserts zeros and parentheses and nothing else, leaves no minus sign without something
on its left, and has then nothing to do on what it made. Its count of the open
parentheses never goes below those that it opened itself.
-/

namespace KeypadCalculator

namespace PrefixMinus

/-- The second row is the first with literals `0` and parentheses inserted. -/
inductive Inserts : List Token → List Token → Prop where
  | nil : Inserts [] []
  | kept (token : Token) {row out : List Token} (h : Inserts row out) :
      Inserts (token :: row) (token :: out)
  | inserted {token : Token} {row out : List Token}
      (hToken : token ∈ [zeroLiteral, .openParen, .closeParen]) (h : Inserts row out) :
      Inserts row (token :: out)

theorem Inserts.append {row row' out out' : List Token} (h : Inserts row out)
    (h' : Inserts row' out') : Inserts (row ++ row') (out ++ out') := by
  induction h with
  | nil => exact h'
  | kept token _ ih => exact .kept token ih
  | inserted hToken _ ih => exact .inserted hToken ih

theorem Inserts.closeParens (closes : Nat) :
    Inserts [] (List.replicate closes .closeParen) := by
  induction closes with
  | zero => exact .nil
  | succ closes ih => exact .inserted (by decide) ih

/-- Every minus sign of the tokens, the last of them first, stands behind an operand or
a percent sign. -/
def Supported (done : List Token) : Prop :=
  ∀ later earlier, done = later ++ .operator .subtract :: earlier →
    ∃ last rest, earlier = last :: rest ∧
      (Phrase.EndsOperand last ∨ last = .operator .percent)

theorem Supported.cons {token : Token} {done : List Token} (h : Supported done)
    (hMinus : token = .operator .subtract → ∃ last rest, done = last :: rest ∧
      (Phrase.EndsOperand last ∨ last = .operator .percent)) :
    Supported (token :: done) := by
  intro later earlier hSplit
  cases later with
  | nil =>
      obtain ⟨rfl, rfl⟩ := List.cons.inj hSplit
      exact hMinus rfl
  | cons first later => exact h later earlier (List.cons.inj hSplit).2

theorem Supported.closeParens {done : List Token} (h : Supported done) (closes : Nat) :
    Supported (List.replicate closes .closeParen ++ done) := by
  induction closes with
  | zero => exact h
  | succ closes ih => exact ih.cons nofun

/-- All that one token adds to the tokens so far: what a minus sign has inserted in
front of it, the token itself, and the ends of negations behind it. -/
theorem exists_done_step (s : PrefixMinus) (token : Token) :
    ∃ (closes : Nat) (inserted : List Token),
      (s.step token).done =
          List.replicate closes .closeParen ++ token :: (inserted ++ s.done) ∧
        (inserted = [] ∨ inserted = [zeroLiteral] ∨ inserted = [zeroLiteral, .openParen]) ∧
        (token = .operator .subtract → ∃ last rest, inserted ++ s.done = last :: rest ∧
          (Phrase.EndsOperand last ∨ last = .operator .percent)) := by
  have hZero : Phrase.EndsOperand zeroLiteral := trivial
  cases token with
  | number literal =>
      obtain ⟨closes, hDone⟩ := exists_done_close (.number literal :: s.done) s.depth s.waiting
      exact ⟨closes, [], hDone, .inl rfl, nofun⟩
  | openParen => exact ⟨0, [], rfl, .inl rfl, nofun⟩
  | closeParen =>
      obtain ⟨closes, hDone⟩ := exists_done_close (.closeParen :: s.done) (s.depth - 1)
        (s.waiting.filter (· ≤ s.depth - 1))
      exact ⟨closes, [], hDone, .inl rfl, nofun⟩
  | operator op =>
      by_cases hMinus : op = .subtract
      · subst hMinus
        obtain ⟨done, depth, waiting⟩ := s
        match done with
        | [] => exact ⟨0, [zeroLiteral], rfl, by simp, fun _ => ⟨_, _, rfl, .inl hZero⟩⟩
        | .openParen :: done =>
            exact ⟨0, [zeroLiteral], rfl, by simp, fun _ => ⟨_, _, rfl, .inl hZero⟩⟩
        | .number literal :: done =>
            exact ⟨0, [], rfl, .inl rfl, fun _ => ⟨_, _, rfl, .inl trivial⟩⟩
        | .closeParen :: done =>
            exact ⟨0, [], rfl, .inl rfl, fun _ => ⟨_, _, rfl, .inl trivial⟩⟩
        | .operator last :: done =>
            by_cases hPercent : last = .percent
            · subst hPercent
              exact ⟨0, [], rfl, .inl rfl, fun _ => ⟨_, _, rfl, .inr rfl⟩⟩
            · refine ⟨0, [zeroLiteral, .openParen], ?_, by simp,
                fun _ => ⟨_, _, rfl, .inl hZero⟩⟩
              rw [step_negation hPercent]
              rfl
      · refine ⟨0, [], ?_, .inl rfl, fun hToken => absurd (Token.operator.inj hToken) hMinus⟩
        cases op <;> first | rfl | exact absurd rfl hMinus

theorem Supported.step {s : PrefixMinus} (h : Supported s.done) (token : Token) :
    Supported (s.step token).done := by
  obtain ⟨closes, inserted, hDone, hInserted, hMinus⟩ := exists_done_step s token
  have hFront : Supported (inserted ++ s.done) := by
    rcases hInserted with rfl | rfl | rfl
    · exact h
    · exact h.cons nofun
    · have hGroup : Supported (.openParen :: s.done) := h.cons nofun
      exact hGroup.cons nofun
  rw [hDone]
  exact (hFront.cons hMinus).closeParens closes

theorem Supported.run {s : PrefixMinus} (h : Supported s.done) (tokens : List Token) :
    Supported (tokens.foldl PrefixMinus.step s).done := by
  induction tokens generalizing s with
  | nil => exact h
  | cons token tokens ih => exact ih (h.step token)

theorem exists_inserts_step (s : PrefixMinus) (token : Token) :
    ∃ out, (s.step token).done.reverse = s.done.reverse ++ out ∧ Inserts [token] out := by
  obtain ⟨closes, inserted, hDone, hInserted, -⟩ := exists_done_step s token
  refine ⟨inserted.reverse ++ token :: List.replicate closes .closeParen, by simp [hDone], ?_⟩
  have hBehind : Inserts [token] (token :: List.replicate closes .closeParen) :=
    .kept token (.closeParens closes)
  rcases hInserted with rfl | rfl | rfl
  · exact hBehind
  · exact .inserted (by decide) hBehind
  · exact .inserted (by decide) (.inserted (by decide) hBehind)

/-- The pass inserts behind what it has written so far. -/
theorem exists_inserts_run (s : PrefixMinus) (tokens : List Token) :
    ∃ out, (tokens.foldl step s).done.reverse = s.done.reverse ++ out ∧ Inserts tokens out := by
  induction tokens generalizing s with
  | nil => exact ⟨[], (List.append_nil _).symm, .nil⟩
  | cons token tokens ih =>
      obtain ⟨out, hOut, hInserts⟩ := exists_inserts_step s token
      obtain ⟨out', hOut', hInserts'⟩ := ih (s.step token)
      refine ⟨out ++ out', ?_, hInserts.append hInserts'⟩
      rw [List.foldl_cons, hOut', hOut, List.append_assoc]

/-- Where every minus sign is supported and no negation is open, the pass inserts
nothing. -/
theorem exists_foldl_supported (row : List Token) {done : List Token} (depth : Nat)
    (h : Supported (row.reverse ++ done)) :
    ∃ depth', row.foldl step ⟨done, depth, []⟩ = ⟨row.reverse ++ done, depth', []⟩ := by
  induction row generalizing done depth with
  | nil => exact ⟨depth, rfl⟩
  | cons token row ih =>
      rw [List.reverse_cons, List.append_assoc] at h ⊢
      have hStep : ∃ depth', step ⟨done, depth, []⟩ token = ⟨token :: done, depth', []⟩ := by
        cases token with
        | number literal => exact ⟨depth, rfl⟩
        | openParen => exact ⟨depth + 1, rfl⟩
        | closeParen => exact ⟨depth - 1, rfl⟩
        | operator op =>
            refine ⟨depth, ?_⟩
            by_cases hMinus : op = .subtract
            · subst hMinus
              obtain ⟨last, rest, rfl, hLast⟩ := h row.reverse done rfl
              exact step_operator_suffixed hLast depth [] .subtract
            · cases op <;> first | rfl | exact absurd rfl hMinus
      obtain ⟨depth', hStep⟩ := hStep
      rw [List.foldl_cons, hStep]
      exact ih depth' h

/-- The state after a token itself is written, before negations are closed behind it. -/
def written (s : PrefixMinus) : Token → PrefixMinus
  | .number literal => { s with done := .number literal :: s.done }
  | .closeParen =>
    { done := .closeParen :: s.done
      depth := s.depth - 1
      waiting := s.waiting.filter (· ≤ s.depth - 1) }
  | token => s.step token

/-- The state after so many negations were closed. -/
def closed (s : PrefixMinus) (count : Nat) : PrefixMinus where
  done := List.replicate count .closeParen ++ s.done
  depth := s.depth - count
  waiting := s.waiting.drop count

/-- So many negations can be closed one after the other: each of them is the innermost
one and was opened at the depth that is reached, which is not zero. -/
structure Closes (s : PrefixMinus) (count : Nat) : Prop where
  bound : count ≤ s.depth
  reached : ∀ n < count, (s.closed n).waiting.head? = some (s.closed n).depth
  waits : ∀ n ≤ count, Waits (s.closed n).depth (s.closed n).waiting

theorem Closes.zero {s : PrefixMinus} (h : Waits s.depth s.waiting) : Closes s 0 where
  bound := Nat.zero_le _
  reached _ hLess := absurd hLess (Nat.not_lt_zero _)
  waits n hLe := by
    obtain rfl : n = 0 := Nat.le_zero.mp hLe
    exact h

theorem exists_closes {depth : Nat} {waiting : List Nat} (h : Waits depth waiting)
    (done : List Token) :
    ∃ count, close done depth waiting = closed ⟨done, depth, waiting⟩ count ∧
      Closes ⟨done, depth, waiting⟩ count := by
  induction waiting generalizing done depth with
  | nil => exact ⟨0, rfl, .zero h⟩
  | cons d waiting ih =>
      by_cases hDepth : d = depth
      · subst hDepth
        have hPositive : 0 < d := h.positive d List.mem_cons_self
        obtain ⟨count, hClose, hBound, hReached, hWaits⟩ := ih h.tail (.closeParen :: done)
        have hShift (n : Nat) : closed ⟨done, d, d :: waiting⟩ (n + 1) =
            closed ⟨.closeParen :: done, d - 1, waiting⟩ n := by
          simp [closed, List.replicate_succ', Nat.sub_sub, Nat.add_comm 1]
        refine ⟨count + 1, ?_, ?_, fun n hLess => ?_, fun n hLe => ?_⟩
        · rw [close, if_pos rfl, hClose, hShift]
        · exact Nat.add_le_of_le_sub hPositive hBound
        · cases n with
          | zero => rfl
          | succ n => exact hShift n ▸ hReached n (Nat.lt_of_succ_lt_succ hLess)
        · cases n with
          | zero => exact h
          | succ n => exact hShift n ▸ hWaits n (Nat.le_of_succ_le_succ hLe)
      · refine ⟨0, ?_, .zero h⟩
        rw [close, if_neg hDepth]
        rfl

/-- A token is written, and then so many negations are closed as can be. -/
theorem exists_closes_written {s : PrefixMinus} (h : Waits s.depth s.waiting) (token : Token) :
    ∃ count, s.step token = (s.written token).closed count ∧ (s.written token).Closes count := by
  cases token with
  | number literal => exact exists_closes h (.number literal :: s.done)
  | closeParen => exact exists_closes (h.filter (s.depth - 1)) (.closeParen :: s.done)
  | openParen => exact ⟨0, rfl, .zero (h.step .openParen)⟩
  | operator op => exact ⟨0, rfl, .zero (h.step (.operator op))⟩

/-- The pass over the minus signs inserts zeros and parentheses only. Every minus sign of
what it makes stands behind a number, a closing parenthesis or a percent sign, and a
second pass changes nothing. At every token, and at every negation that is closed behind
it, the waiting negations have depths of their own between one and the depth that is
reached, so that closing one never takes away from zero. A sentence becomes one without
minus signs in front of operands. -/
theorem complete_conservative (tokens : List Token) :
    Inserts tokens (complete tokens) ∧
    (∀ front back, complete tokens = front ++ .operator .subtract :: back →
      ∃ before last, front = before ++ [last] ∧
        (Phrase.EndsOperand last ∨ last = .operator .percent)) ∧
    complete (complete tokens) = complete tokens ∧
    (∀ front token back, tokens = front ++ token :: back →
      let s := front.foldl step start
      Waits s.depth s.waiting ∧
        ∃ count, s.step token = (s.written token).closed count ∧
          (s.written token).Closes count) ∧
    (Shaped true .sentence tokens → Shaped false .sentence (complete tokens)) := by
  have hNone : Waits start.depth start.waiting := Waits.none 0
  have hSupported : Supported (complete tokens).reverse := by
    have hStart : Supported start.done := fun later earlier hSplit => by
      simp [start] at hSplit
    rw [complete, List.reverse_reverse]
    exact hStart.run tokens
  refine ⟨?_, fun front back hSplit => ?_, ?_, fun front token back _ => ?_, Shaped.complete⟩
  · obtain ⟨out, hOut, hInserts⟩ := exists_inserts_run start tokens
    rw [complete, hOut]
    exact hInserts
  · obtain ⟨last, rest, hFront, hLast⟩ := hSupported back.reverse front.reverse (by simp [hSplit])
    refine ⟨rest.reverse, last, ?_, hLast⟩
    rw [← List.reverse_reverse front, hFront, List.reverse_cons]
  · have hRow : Supported ((complete tokens).reverse ++ []) := by simpa using hSupported
    obtain ⟨depth, hRun⟩ := exists_foldl_supported (complete tokens) 0 hRow
    rw [complete, start, hRun]
    simp
  · have hWaits := hNone.run front
    exact ⟨hWaits, exists_closes_written hWaits token⟩

/-- A row in which one minus sign stands behind another, `2×--3`. -/
def signChain : List Token :=
  [.number ['2'], .operator .multiply, .operator .subtract, .operator .subtract, .number ['3']]

/-- In `2×--3` the second minus sign opens a negation inside that of the first, and both
are closed behind the `3`. -/
theorem complete_conservative_chain :
    Inserts signChain (complete signChain) ∧
    (complete signChain = [.number ['2'], .operator .multiply, .openParen, zeroLiteral] ++
        .operator .subtract :: [.openParen, zeroLiteral, .operator .subtract, .number ['3'],
          .closeParen, .closeParen] ∧
      ∃ before last,
        [.number ['2'], .operator .multiply, .openParen, zeroLiteral] = before ++ [last] ∧
          (Phrase.EndsOperand last ∨ last = .operator .percent)) ∧
    complete (complete signChain) = complete signChain ∧
    (signChain = [.number ['2'], .operator .multiply, .operator .subtract, .operator .subtract] ++
        .number ['3'] :: [] ∧
      Waits 2 [2, 1]) ∧
    (Shaped true .sentence signChain ∧ Shaped false .sentence (complete signChain)) := by
  obtain ⟨hInserts, hMinus, hAgain, hWaits, hShaped⟩ := complete_conservative signChain
  have hOut : complete signChain =
      [.number ['2'], .operator .multiply, .openParen, zeroLiteral] ++
        .operator .subtract :: [.openParen, zeroLiteral, .operator .subtract, .number ['3'],
          .closeParen, .closeParen] := by
    decide
  have hLast : signChain =
      [.number ['2'], .operator .multiply, .operator .subtract, .operator .subtract] ++
        .number ['3'] :: [] := rfl
  have hOperand : Shaped true (.operand true)
      [.operator .subtract, .operator .subtract, .number ['3']] :=
    .negated rfl (.negated rfl (.literal ['3']))
  have hSentence : Shaped true .sentence signChain :=
    .binary (.operand (.literal ['2'])) hOperand
  exact ⟨hInserts, ⟨hOut, hMinus _ _ hOut⟩, hAgain, ⟨hLast, (hWaits _ _ _ hLast).1⟩,
    hSentence, hShaped hSentence⟩

end PrefixMinus

end KeypadCalculator
