import KeypadCalculator.Postfix

/-!
The stack of pending operators: what leaves it, and what an open parenthesis keeps
from leaving.
-/

namespace KeypadCalculator

namespace Pending

/-- All that a stack of pending operators releases is operators. -/
theorem exists_operator_of_mem_releaseAll {stack : List Pending} {token : Token}
    (h : token ∈ releaseAll stack) : ∃ op, token = .operator op := by
  induction stack with
  | nil => cases h
  | cons top stack ih =>
      cases top with
      | openParen => exact ih h
      | operator op =>
          rcases List.mem_cons.mp h with rfl | h
          · exact ⟨op, rfl⟩
          · exact ih h

/-- What is released at once and what is kept make up the stack. -/
theorem release_append_releaseAll (op : Operator) (stack : List Pending) :
    (release op stack).1 ++ releaseAll (release op stack).2 = releaseAll stack := by
  fun_induction release op stack with
  | case1 top stack hTop released rest hRelease ih =>
      rw [hRelease] at ih
      simp [releaseAll, ih]
  | case2 => rfl
  | case3 => rfl

theorem releaseGroup_append_releaseAll (stack : List Pending) :
    (releaseGroup stack).1 ++ releaseAll (releaseGroup stack).2 = releaseAll stack := by
  fun_induction releaseGroup stack with
  | case1 top stack released rest hRelease ih =>
      rw [hRelease] at ih
      simp [releaseAll, ih]
  | case2 => rfl
  | case3 => rfl

/-- An operator does not look below the innermost open parenthesis. -/
theorem release_append_openParen (op : Operator) (stack low : List Pending) :
    release op (stack ++ .openParen :: low) =
      ((release op stack).1, (release op stack).2 ++ .openParen :: low) := by
  fun_induction release op stack with
  | case1 top stack hTop released rest hRelease ih =>
      rw [hRelease] at ih
      simp [release, hTop, ih]
  | case2 top stack hTop => simp [release, hTop]
  | case3 stack hStack =>
      cases stack with
      | nil => rfl
      | cons top stack =>
          cases top with
          | operator top => exact absurd rfl (hStack top stack)
          | openParen => rfl

theorem count_release (op : Operator) (stack : List Pending) :
    (release op stack).2.count .openParen = stack.count .openParen := by
  fun_induction release op stack with
  | case1 top stack hTop released rest hRelease ih =>
      rw [hRelease] at ih
      simpa using ih
  | case2 => rfl
  | case3 => rfl

/-- A parenthesis closes the innermost open one. -/
theorem releaseGroup_append_of_count {stack : List Pending} {depth : Nat}
    (h : stack.count .openParen = depth + 1) (low : List Pending) :
    releaseGroup (stack ++ low) = ((releaseGroup stack).1, (releaseGroup stack).2 ++ low) ∧
      (releaseGroup stack).2.count .openParen = depth := by
  induction stack with
  | nil => simp at h
  | cons top stack ih =>
      cases top with
      | operator op =>
          obtain ⟨hAppend, hCount⟩ := ih (by simpa using h)
          exact ⟨by simp [releaseGroup, hAppend], hCount⟩
      | openParen =>
          rw [List.count_cons_self] at h
          exact ⟨rfl, Nat.succ.inj h⟩

theorem releaseGroup_append_openParen {stack : List Pending} (h : stack.count .openParen = 0)
    (low : List Pending) :
    releaseGroup (stack ++ .openParen :: low) = (releaseAll stack, low) := by
  induction stack with
  | nil => rfl
  | cons top stack ih =>
      cases top with
      | operator op => simp [releaseGroup, releaseAll, ih (by simpa using h)]
      | openParen => simp at h

theorem release_append_openParens (op : Operator) (stack : List Pending) (opened : Nat) :
    release op (stack ++ List.replicate opened .openParen) =
      ((release op stack).1, (release op stack).2 ++ List.replicate opened .openParen) := by
  cases opened with
  | zero => simp
  | succ opened =>
      rw [List.replicate_succ]
      exact release_append_openParen op stack (List.replicate opened .openParen)

/-- A closing parenthesis that closes nothing takes one of the open parentheses
below along. -/
theorem releaseGroup_append_openParens (stack : List Pending) (opened : Nat) :
    ∃ left, releaseGroup (stack ++ List.replicate opened .openParen) =
      ((releaseGroup stack).1, (releaseGroup stack).2 ++ List.replicate left .openParen) := by
  induction stack with
  | nil =>
      cases opened with
      | zero => exact ⟨0, rfl⟩
      | succ opened => exact ⟨opened, rfl⟩
  | cons top stack ih =>
      cases top with
      | openParen => exact ⟨opened, rfl⟩
      | operator op =>
          obtain ⟨left, hRelease⟩ := ih
          exact ⟨left, by simp [releaseGroup, hRelease]⟩

theorem releaseAll_append_openParens (stack : List Pending) (opened : Nat) :
    releaseAll (stack ++ List.replicate opened .openParen) = releaseAll stack := by
  induction stack with
  | nil =>
      induction opened with
      | zero => rfl
      | succ opened ih => exact ih
  | cons top stack ih => cases top <;> simp [releaseAll, ih]

end Pending

end KeypadCalculator
