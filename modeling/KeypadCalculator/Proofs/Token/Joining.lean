import KeypadCalculator.Proofs.Token.Splitting
import Mathlib.Data.List.Flatten

/-!
What tokens keep of a text. Joined, they are the text without the glyphs that have
no place in a token; and a literal is gathered from a stretch of the text without
an operator character in it.
-/

namespace KeypadCalculator

namespace Glyph

/-- The glyph is in a token: it continues a literal, or it is a token by itself. -/
def isRead (glyph : Glyph) : Bool :=
  match glyph.role with
  | .literal _ | .token _ => true
  | .gap | .ignored => false

theorem eq_character_of_role {glyph : Glyph} {c : Char} (h : glyph.role = .literal c) :
    glyph = .character c := by
  cases glyph with
  | modulo => cases h
  | character d =>
      rw [role] at h
      split at h
      · rw [Role.literal.inj h]
      · repeat' split at h
        all_goals cases h

theorem text_of_role_token {glyph : Glyph} {token : Token} (h : glyph.role = .token token) :
    glyph.text = token.text := by
  cases glyph with
  | modulo =>
      obtain rfl := Role.token.inj h
      rfl
  | character c =>
      rw [role] at h
      split at h
      · cases h
      · split at h
        · rename_i op hOp
          obtain rfl := Role.token.inj h
          exact (Operator.symbol_of_ofChar? hOp).symm
        · repeat' split at h
          all_goals cases h
          all_goals
            subst_vars
            rfl

/-- No glyph is a literal by itself. -/
theorem role_ne_number (glyph : Glyph) (literal : List Char) :
    glyph.role ≠ .token (.number literal) := by
  intro h
  cases glyph with
  | modulo => cases h
  | character c =>
      rw [role] at h
      repeat' split at h
      all_goals cases h

theorem text_ne_nil (glyph : Glyph) : glyph.text ≠ [] := by
  cases glyph <;> simp [text]

/-- Every glyph has a text, so that none can be left out unseen. -/
theorem flatMap_filter_eq_iff (p : Glyph → Bool) (glyphs : List Glyph) :
    (glyphs.filter p).flatMap text = glyphs.flatMap text ↔ ∀ glyph ∈ glyphs, p glyph = true := by
  constructor
  · intro h
    induction glyphs with
    | nil => exact fun _ hMem => absurd hMem List.not_mem_nil
    | cons glyph glyphs ih =>
        by_cases hGlyph : p glyph = true
        · rw [List.filter_cons_of_pos hGlyph, List.flatMap_cons, List.flatMap_cons] at h
          intro other hMem
          rcases List.mem_cons.mp hMem with rfl | hRest
          · exact hGlyph
          · exact ih (List.append_cancel_left h) other hRest
        · rw [List.filter_cons_of_neg hGlyph, List.flatMap_cons] at h
          have hShort := (List.Sublist.flatMap (List.filter_sublist (p := p) (l := glyphs))
            text).length_le
          have hText := List.length_pos_iff.mpr glyph.text_ne_nil
          rw [h, List.length_append] at hShort
          omega
  · intro h
    rw [List.filter_eq_self.mpr h]

end Glyph

namespace Token

theorem join_append (front rest : List Token) : join (front ++ rest) = join front ++ join rest :=
  List.flatMap_append

theorem join_ofRun (run : List Char) : join (ofRun run) = run := by
  cases run <;> simp [ofRun, join, text]

theorem join_gather (run : List Char) (glyphs : List Glyph) :
    join (gather run glyphs) = run ++ (glyphs.filter Glyph.isRead).flatMap Glyph.text := by
  induction glyphs generalizing run with
  | nil => simp [gather, join_ofRun]
  | cons glyph glyphs ih =>
      rw [gather]
      cases hRole : glyph.role with
      | literal c =>
          have hRead : glyph.isRead = true := by simp [Glyph.isRead, hRole]
          rw [List.filter_cons_of_pos hRead, List.flatMap_cons, Glyph.eq_character_of_role hRole]
          simp [ih, Glyph.text]
      | token t =>
          have hRead : glyph.isRead = true := by simp [Glyph.isRead, hRole]
          rw [List.filter_cons_of_pos hRead, List.flatMap_cons, Glyph.text_of_role_token hRole,
            join_append, join_ofRun]
          exact congrArg (fun rest => run ++ (t.text ++ rest)) (ih [])
      | gap =>
          have hRead : glyph.isRead = false := by simp [Glyph.isRead, hRole]
          simp [join_append, join_ofRun, ih, hRead]
      | ignored =>
          have hRead : glyph.isRead = false := by simp [Glyph.isRead, hRole]
          simp [ih, hRead]

/-- Joined, the tokens of a text are the glyphs of it that are in a token. -/
theorem join_ofText (expression : List Char) :
    join (ofText expression) =
      ((Glyph.ofText expression).filter Glyph.isRead).flatMap Glyph.text :=
  join_gather [] (Glyph.ofText expression)

theorem join_ofText_eq_iff (expression : List Char) :
    join (ofText expression) = expression ↔
      ∀ glyph ∈ Glyph.ofText expression, glyph.isRead = true := by
  have hGlyphs := Glyph.flatMap_filter_eq_iff Glyph.isRead (Glyph.ofText expression)
  rwa [← join_ofText, Glyph.flatMap_text_ofText] at hGlyphs

theorem eq_of_mem_ofRun {literal run : List Char} (h : .number literal ∈ ofRun run) :
    literal = run ∧ run ≠ [] := by
  rw [ofRun] at h
  split at h
  · cases h
  · rename_i hSome
    exact ⟨Token.number.inj (List.mem_singleton.mp h),
      fun hNone => hSome (List.isEmpty_iff.mpr hNone)⟩

/-- Where a literal is gathered from: it is the run that the first glyph ends, or comes
behind that end, or the first glyph is one more character of the run or is passed
over. -/
theorem mem_gather_cons_cases {glyph : Glyph} {glyphs : List Glyph} {run literal : List Char}
    (h : .number literal ∈ gather run (glyph :: glyphs)) :
    .number literal ∈ ofRun run ∨ .number literal ∈ gather [] glyphs ∨
      (∃ c, glyph.role = .literal c ∧ .number literal ∈ gather (run ++ [c]) glyphs) ∨
      glyph.role = .ignored ∧ .number literal ∈ gather run glyphs := by
  rw [gather] at h
  cases hRole : glyph.role with
  | literal c =>
      rw [hRole] at h
      exact .inr (.inr (.inl ⟨c, rfl, h⟩))
  | token token =>
      rw [hRole] at h
      rcases List.mem_append.mp h with hEnded | hMem
      · exact .inl hEnded
      · rcases List.mem_cons.mp hMem with rfl | hBehind
        · exact absurd hRole (glyph.role_ne_number literal)
        · exact .inr (.inl hBehind)
  | gap =>
      rw [hRole] at h
      exact (List.mem_append.mp h).imp_right .inl
  | ignored =>
      rw [hRole] at h
      exact .inr (.inr (.inr ⟨rfl, h⟩))

/-- No glyph of a literal or without a place in a token is an operator character. -/
theorem isOperatorChar_of_role {c : Char} (h : ∀ token, (Glyph.character c).role ≠ .token token) :
    isOperatorChar c = false := by
  rw [isOperatorChar, Option.isSome_eq_false_iff, Option.isNone_iff_eq_none,
    Option.eq_none_iff_forall_ne_some]
  intro op hOp
  exact h _ (Glyph.role_operator hOp)

/-- The literal is gathered from one stretch of the text, in which there is no
operator character. -/
def IsGathered (literal text : List Char) : Prop :=
  ∃ stretch, stretch <:+: text ∧ (∀ c ∈ stretch, isOperatorChar c = false) ∧
    literal.Sublist stretch

theorem IsGathered.behind {literal text : List Char} (h : IsGathered literal text)
    (front : List Char) : IsGathered literal (front ++ text) := by
  obtain ⟨stretch, hInfix, hStretch, hLiteral⟩ := h
  exact ⟨stretch, hInfix.trans (List.suffix_append front text).isInfix, hStretch, hLiteral⟩

/-- A stretch is read up to here, and `run` is what a literal holds of it. -/
theorem isGathered_of_mem_gather {glyphs : List Glyph} {run stretch literal : List Char}
    (hRun : run.Sublist stretch) (hStretch : ∀ c ∈ stretch, isOperatorChar c = false)
    (h : .number literal ∈ gather run glyphs) :
    IsGathered literal (stretch ++ glyphs.flatMap Glyph.text) := by
  have hEnded {run stretch : List Char} (hRun : run.Sublist stretch)
      (hStretch : ∀ c ∈ stretch, isOperatorChar c = false) (rest : List Char)
      (hMem : .number literal ∈ ofRun run) : IsGathered literal (stretch ++ rest) := by
    obtain ⟨rfl, -⟩ := eq_of_mem_ofRun hMem
    exact ⟨stretch, (List.prefix_append stretch rest).isInfix, hStretch, hRun⟩
  induction glyphs generalizing run stretch with
  | nil => exact hEnded hRun hStretch _ h
  | cons glyph glyphs ih =>
      have hOn {c : Char} (hGlyph : glyph = .character c)
          (hRole : ∀ token, glyph.role ≠ .token token) {next : List Char}
          (hNext : next.Sublist (stretch ++ [c])) (hMem : .number literal ∈ gather next glyphs) :
          IsGathered literal (stretch ++ (glyph :: glyphs).flatMap Glyph.text) := by
        subst hGlyph
        have hLonger : ∀ d ∈ stretch ++ [c], isOperatorChar d = false :=
          List.forall_mem_append.mpr ⟨hStretch, by simpa using isOperatorChar_of_role hRole⟩
        have hRest := ih hNext hLonger hMem
        rwa [List.append_assoc] at hRest
      rcases mem_gather_cons_cases h with hMem | hMem | ⟨c, hRole, hMem⟩ | ⟨hRole, hMem⟩
      · exact hEnded hRun hStretch _ hMem
      · have hRest := ih (List.Sublist.refl []) (fun c hNone => by cases hNone) hMem
        rw [List.flatMap_cons]
        exact (hRest.behind glyph.text).behind stretch
      · exact hOn (Glyph.eq_character_of_role hRole) (by simp [hRole])
          (hRun.append (List.Sublist.refl [c])) hMem
      · cases glyph with
        | modulo => cases hRole
        | character c =>
            exact hOn rfl (by simp [hRole]) (hRun.trans (List.sublist_append_left stretch [c])) hMem

/-- Every literal of a text is gathered from one stretch of it. -/
theorem isGathered_of_mem_ofText {expression literal : List Char}
    (h : .number literal ∈ ofText expression) : IsGathered literal expression := by
  have hGathered := isGathered_of_mem_gather (List.Sublist.refl [])
    (fun c hNone => by cases hNone) h
  rwa [List.nil_append, Glyph.flatMap_text_ofText] at hGathered

end Token

end KeypadCalculator
