import KeypadCalculator.PrefixMinus

/-!
The depths that the pass over the minus signs counts, and what open parentheses
in front of all tokens do to them. A negation that waits for its operand stands
at a depth of its own, so the depths can be shifted without a trace in the
tokens.
-/

namespace KeypadCalculator

namespace PrefixMinus

/-- Closing negations writes closing parentheses only, and does not look at the tokens
so far. -/
theorem exists_close_eq (depth : Nat) (waiting : List Nat) :
    ∃ (closes depth' : Nat) (waiting' : List Nat), ∀ done,
      close done depth waiting =
        ⟨List.replicate closes .closeParen ++ done, depth', waiting'⟩ := by
  induction waiting generalizing depth with
  | nil => exact ⟨0, depth, [], fun _ => rfl⟩
  | cons d waiting ih =>
      by_cases hDepth : d = depth
      · obtain ⟨closes, depth', waiting', hClose⟩ := ih (depth - 1)
        refine ⟨closes + 1, depth', waiting', fun done => ?_⟩
        rw [close, if_pos hDepth, hClose, List.replicate_succ']
        simp
      · refine ⟨0, depth, d :: waiting, fun done => ?_⟩
        rw [close, if_neg hDepth]
        rfl

theorem exists_done_close (done : List Token) (depth : Nat) (waiting : List Nat) :
    ∃ closes, (close done depth waiting).done = List.replicate closes .closeParen ++ done := by
  obtain ⟨closes, depth', waiting', hClose⟩ := exists_close_eq depth waiting
  exact ⟨closes, by rw [hClose]⟩

/-- The depths of the waiting negations, innermost first: they go down from the
depth that is reached, and none of them is zero. -/
structure Waits (depth : Nat) (waiting : List Nat) : Prop where
  ordered : waiting.Pairwise (· > ·)
  positive : ∀ d ∈ waiting, 0 < d
  reached : ∀ d ∈ waiting, d ≤ depth

theorem Waits.none (depth : Nat) : Waits depth [] :=
  ⟨.nil, by simp, by simp⟩

/-- No negation waits where nothing is open. -/
theorem Waits.eq_nil {waiting : List Nat} (h : Waits 0 waiting) : waiting = [] := by
  rw [List.eq_nil_iff_forall_not_mem]
  intro d hMem
  have hPositive := h.positive d hMem
  have hReached := h.reached d hMem
  omega

theorem Waits.filter {depth : Nat} {waiting : List Nat} (h : Waits depth waiting)
    (lower : Nat) : Waits lower (waiting.filter (· ≤ lower)) where
  ordered := h.ordered.filter _
  positive d hMem := h.positive d (List.mem_filter.mp hMem).1
  reached d hMem := by simpa using (List.mem_filter.mp hMem).2

theorem Waits.push {depth : Nat} {waiting : List Nat} (h : Waits depth waiting) :
    Waits (depth + 1) ((depth + 1) :: waiting) where
  ordered := List.pairwise_cons.mpr ⟨fun d hMem => Nat.lt_succ_of_le (h.reached d hMem), h.ordered⟩
  positive := List.forall_mem_cons.mpr ⟨Nat.succ_pos depth, h.positive⟩
  reached := List.forall_mem_cons.mpr
    ⟨Nat.le_refl _, fun d hMem => Nat.le_succ_of_le (h.reached d hMem)⟩

theorem Waits.succ {depth : Nat} {waiting : List Nat} (h : Waits depth waiting) :
    Waits (depth + 1) waiting :=
  ⟨h.ordered, h.positive, fun d hMem => Nat.le_succ_of_le (h.reached d hMem)⟩

/-- What is left behind the innermost negation, once that has been closed. -/
theorem Waits.tail {d : Nat} {waiting : List Nat} (h : Waits d (d :: waiting)) :
    Waits (d - 1) waiting where
  ordered := (List.pairwise_cons.mp h.ordered).2
  positive e hMem := h.positive e (List.mem_cons_of_mem d hMem)
  reached e hMem := Nat.le_sub_one_of_lt ((List.pairwise_cons.mp h.ordered).1 e hMem)

theorem Waits.close {depth : Nat} {waiting : List Nat} (h : Waits depth waiting)
    (done : List Token) :
    Waits (close done depth waiting).depth (close done depth waiting).waiting := by
  induction waiting generalizing done depth with
  | nil => exact h
  | cons d waiting ih =>
      rw [PrefixMinus.close]
      split
      · rename_i hDepth
        subst hDepth
        exact ih h.tail _
      · exact h

/-- Every token keeps the depths in order. -/
theorem Waits.step {s : PrefixMinus} (h : Waits s.depth s.waiting) (token : Token) :
    Waits (s.step token).depth (s.step token).waiting := by
  obtain ⟨done, depth, waiting⟩ := s
  cases token with
  | number digits => exact h.close _
  | openParen => exact h.succ
  | closeParen => exact (h.filter (depth - 1)).close _
  | operator op =>
      cases op with
      | subtract =>
          rw [PrefixMinus.step, minus]
          split
          · exact h
          · exact h
          · split
            · exact h
            · exact h.push
          · exact h
      | _ => exact h

theorem Waits.run {s : PrefixMinus} (h : Waits s.depth s.waiting) (tokens : List Token) :
    Waits (tokens.foldl PrefixMinus.step s).depth (tokens.foldl PrefixMinus.step s).waiting := by
  induction tokens generalizing s with
  | nil => exact h
  | cons token tokens ih => exact ih (h.step token)

/-- The state with other tokens in front, of whose parentheses so many are still
open. -/
def behind (front : List Token) (opened : Nat) (s : PrefixMinus) : PrefixMinus where
  done := s.done ++ front
  depth := s.depth + opened
  waiting := s.waiting.map (· + opened)

theorem close_behind {depth : Nat} {waiting : List Nat} (h : Waits depth waiting)
    (done front : List Token) (opened : Nat) :
    close (done ++ front) (depth + opened) (waiting.map (· + opened)) =
      (close done depth waiting).behind front opened := by
  induction waiting generalizing done depth with
  | nil => rfl
  | cons d waiting ih =>
      rw [List.map_cons, close, close]
      by_cases hDepth : d = depth
      · subst hDepth
        have hPositive : 0 < d := h.positive d List.mem_cons_self
        have hLower : d + opened - 1 = d - 1 + opened := by omega
        rw [if_pos rfl, if_pos rfl, hLower]
        exact ih h.tail (.closeParen :: done)
      · rw [if_neg hDepth, if_neg (by omega)]
        rfl

/-- Behind an open parenthesis a minus sign finds what it finds at the start. -/
theorem minus_behind (front : List Token) (opened : Nat) (s : PrefixMinus) :
    (s.behind (.openParen :: front) opened).minus =
      s.minus.behind (.openParen :: front) opened := by
  obtain ⟨done, depth, waiting⟩ := s
  match done with
  | [] => rfl
  | .openParen :: _ => rfl
  | .number _ :: _ => rfl
  | .closeParen :: _ => rfl
  | .operator op :: rest =>
      by_cases hPercent : op = .percent
      · simp [behind, minus, hPercent]
      · simp [behind, minus, hPercent, Nat.add_right_comm]

/-- A parenthesis that closes nothing takes one of those in front along. -/
theorem exists_step_behind {s : PrefixMinus} (h : Waits s.depth s.waiting) (front : List Token)
    (opened : Nat) (token : Token) :
    ∃ left, (s.behind (.openParen :: front) opened).step token =
      (s.step token).behind (.openParen :: front) left := by
  obtain ⟨done, depth, waiting⟩ := s
  cases token with
  | number digits => exact ⟨opened, close_behind h (.number digits :: done) _ opened⟩
  | openParen =>
      refine ⟨opened, ?_⟩
      simp [behind, step, Nat.add_right_comm]
  | operator op =>
      refine ⟨opened, ?_⟩
      cases op with
      | subtract => exact minus_behind front opened ⟨done, depth, waiting⟩
      | _ => rfl
  | closeParen =>
      cases depth with
      | zero =>
          obtain rfl : waiting = [] := h.eq_nil
          exact ⟨opened - 1, by simp [behind, step, close]⟩
      | succ depth =>
          refine ⟨opened, ?_⟩
          have hFilter : (waiting.map (· + opened)).filter (· ≤ depth + opened) =
              (waiting.filter (· ≤ depth)).map (· + opened) := by
            rw [List.filter_map]
            congr 2
            funext d
            simp
          have hLower : depth + 1 + opened - 1 = depth + opened := by omega
          have hClose := close_behind (h.filter depth) (.closeParen :: done)
            (.openParen :: front) opened
          rw [List.cons_append] at hClose
          simpa only [behind, step, hLower, hFilter, Nat.add_sub_cancel] using hClose

theorem exists_foldl_behind {s : PrefixMinus} (h : Waits s.depth s.waiting) (front : List Token)
    (opened : Nat) (tokens : List Token) :
    ∃ left, tokens.foldl step (s.behind (.openParen :: front) opened) =
      (tokens.foldl step s).behind (.openParen :: front) left := by
  induction tokens generalizing s opened with
  | nil => exact ⟨opened, rfl⟩
  | cons token tokens ih =>
      obtain ⟨left, hStep⟩ := exists_step_behind h front opened token
      rw [List.foldl_cons, List.foldl_cons, hStep]
      exact ih (h.step token) left

end PrefixMinus

end KeypadCalculator
