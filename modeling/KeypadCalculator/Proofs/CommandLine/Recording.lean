import KeypadCalculator.CommandLine.Run
import KeypadCalculator.Proofs.History.Growth
import KeypadCalculator.Proofs.Keypad.Settling
import KeypadCalculator.Proofs.Phrase.Collapsing

/-!
Which calculations the commands record, and the entries that these become. A recorded
pair of texts is one that the calculator comes to again when it is put back in.
-/

namespace KeypadCalculator

/-- The expression has a value, which the result shows; put into the calculator
together, settling leaves them as they are. -/
def Reproduces (expression result : List Char) : Prop :=
  (∃ value, (evaluate expression).outcome = .ok value) ∧
    (evaluate expression).display = result ∧
    ∀ mode, (Session.ofSettled expression result).press .equals mode =
      Session.ofSettled expression result

theorem reproduces_display {text : List Char} (h : (evaluate text).fault? = none) :
    Reproduces text (evaluate text).display := by
  refine ⟨Evaluation.fault?_eq_none.mp h, rfl, fun mode => ?_⟩
  by_cases hText : text = []
  · exact Session.press_equals_of_nil hText mode
  · rw [Session.press_equals_of_ne_nil hText, Session.settled]
    simp only [Session.ofSettled, h]

/-- An expression evaluates like the text that it was collapsed from. -/
theorem outcome_collapse (text : List Char) :
    (evaluate (Text.collapse text)).outcome = (evaluate text).outcome := by
  rw [evaluate_collapse]

namespace Session

/-- What a key press that settles has to record: a calculation without a fault
that is complete and does not come to zero. -/
def recordings (s : Session) : List (List Char × List Char) :=
  if s.fault = none ∧ s.result ≠ ['0'] ∧ isComplete s.expression = true then
    [(s.expression, s.result)]
  else []

/-- Once the expression is settled, a result that is no error text is the same as
no fault. -/
theorem toList_record?_press_equals (s : Session) (mode : InputMode) :
    (s.press .equals mode).record?.toList = (s.press .equals mode).recordings := by
  by_cases hText : s.expression = []
  · rw [press_equals_of_nil hText]
    have hIncomplete : isComplete s.expression = false := by
      rw [hText]
      rfl
    simp [record?, recordings, hIncomplete]
  · rw [press_equals_of_ne_nil hText]
    cases hOutcome : (evaluate s.expression).outcome with
    | error fault => simp [settled, record?, recordings, Evaluation.fault?, hOutcome]
    | ok value =>
        have hResult : settledText value ≠ errorText :=
          settledText_ne_errorText (isFinite_of_evaluateTokens hOutcome)
        have hFault : s.settled.fault = none := by
          rw [settled, Evaluation.fault?, hOutcome]
        have hShown : s.settled.result ≠ errorText := by
          rw [settled, Evaluation.display_of_ok hOutcome]
          exact hResult
        by_cases hZero : s.settled.result = ['0']
        · simp [record?, recordings, hZero]
        · cases hComplete : isComplete s.settled.expression with
          | false => simp [record?, recordings, hComplete]
          | true => simp [record?, recordings, hFault, hZero, hShown, hComplete]

theorem reproduces_of_mem_recordings {s : Session} {mode : InputMode}
    {expression result : List Char}
    (h : (expression, result) ∈ (s.press .equals mode).recordings) :
    Reproduces expression result ∧ result ≠ ['0'] ∧ isComplete expression = true := by
  rw [recordings] at h
  split at h
  · rename_i hWorth
    obtain ⟨hFault, hZero, hComplete⟩ := hWorth
    obtain ⟨rfl, rfl⟩ := Prod.mk.inj (List.mem_singleton.mp h)
    refine ⟨?_, hZero, hComplete⟩
    by_cases hText : s.expression = []
    · rw [press_equals_of_nil hText, hText] at hComplete
      cases hComplete
    · rw [press_equals_of_ne_nil hText] at hFault ⊢
      exact reproduces_display hFault
  · cases h

end Session

/-- The pair of texts that an entry is made of. -/
def Entry.calculation (e : Entry) : List Char × List Char :=
  (e.expression, e.result)

namespace CommandLine

namespace Clock

/-- The entries are made of the calculations, one after the other, with a look at
the clock for each. -/
structure Stamps (clock : Clock) (calculations : List (List Char × List Char))
    (new : List Entry) : Prop where
  calculations_eq : new.map Entry.calculation = calculations
  timestamps_eq : new.map Entry.timestamp = (List.range new.length).map clock.reading

variable {clock : Clock} {calculations further : List (List Char × List Char)}
  {new newer : List Entry}

theorem after_after (clock : Clock) (first second : Nat) :
    (clock.after first).after second = clock.after (first + second) := by
  simp only [after, Nat.add_assoc]

theorem after_zero (clock : Clock) : clock.after 0 = clock := by
  simp only [after, Nat.zero_add]

theorem stamps_nil (clock : Clock) : clock.Stamps [] [] :=
  ⟨rfl, rfl⟩

theorem Stamps.length_eq (h : clock.Stamps calculations new) :
    new.length = calculations.length := by
  rw [← h.calculations_eq, List.length_map]

theorem Stamps.append (h : clock.Stamps calculations new)
    (hFurther : (clock.after calculations.length).Stamps further newer) :
    clock.Stamps (calculations ++ further) (new ++ newer) where
  calculations_eq := by
    rw [List.map_append, h.calculations_eq, hFurther.calculations_eq]
  timestamps_eq := by
    rw [List.map_append, h.timestamps_eq, hFurther.timestamps_eq, List.length_append,
      List.range_add, List.map_append, List.map_map, h.length_eq]
    rfl

theorem Stamps.mem (h : clock.Stamps calculations new) {e : Entry} (hMem : e ∈ new) :
    e.calculation ∈ calculations := by
  rw [← h.calculations_eq]
  exact List.mem_map_of_mem hMem

end Clock

/-- What the evaluation of a text has to record, under the text as it is
collapsed: a success that is complete and does not come to zero, unless the user
asks for it not to be recorded. -/
def evalRecordings (settings : Settings) (input : List Char) (noHistory : Bool) :
    List (List Char × List Char) :=
  let typed := normalized settings input
  if noHistory = false ∧ (evaluate typed).fault? = none ∧ (evaluate typed).display ≠ ['0'] ∧
      isComplete (Text.collapse typed) = true then
    [(Text.collapse typed, (evaluate typed).display)]
  else []

/-- What key presses have to record, each time that they settle. -/
def keyRecordings (mode : InputMode) (s : Session) : List Key → List (List Char × List Char)
  | [] => []
  | key :: keys =>
    (if key = .equals then (s.press key mode).recordings else []) ++
      keyRecordings mode (s.press key mode) keys

/-- The keys of the lines in front of a farewell. -/
def pressedKeys (settings : Settings) (input : List Char) : List Key :=
  ((linesFrom [] input).takeWhile (!Repl.isFarewell ·)).flatMap
    (Key.ofTyping settings.asciiOperators)

/-- The calculations that a command has to record, in order. -/
def recordings (settings : Settings) (input : List Char) : Command → List (List Char × List Char)
  | .eval expression _ noHistory => evalRecordings settings expression noHistory
  | .repl => keyRecordings settings.inputMode .new (pressedKeys settings input)
  | .list _ | .clear | .check _ _ => []

theorem reproduces_of_mem_evalRecordings {settings : Settings} {input : List Char}
    {noHistory : Bool} {expression result : List Char}
    (h : (expression, result) ∈ evalRecordings settings input noHistory) :
    Reproduces expression result ∧ result ≠ ['0'] ∧ isComplete expression = true := by
  simp only [evalRecordings] at h
  split at h
  · rename_i hWorth
    obtain ⟨-, hFault, hZero, hComplete⟩ := hWorth
    obtain ⟨rfl, rfl⟩ := Prod.mk.inj (List.mem_singleton.mp h)
    refine ⟨?_, hZero, hComplete⟩
    rw [← evaluate_collapse] at hFault ⊢
    exact reproduces_display hFault
  · cases h

theorem reproduces_of_mem_keyRecordings {mode : InputMode} {s : Session} {keys : List Key}
    {expression result : List Char} (h : (expression, result) ∈ keyRecordings mode s keys) :
    Reproduces expression result ∧ result ≠ ['0'] ∧ isComplete expression = true := by
  induction keys generalizing s with
  | nil => cases h
  | cons key keys ih =>
      rcases List.mem_append.mp h with hKey | hKeys
      · split at hKey
        · rename_i hEquals
          subst key
          exact Session.reproduces_of_mem_recordings hKey
        · cases hKey
      · exact ih hKeys

theorem reproduces_of_mem_recordings {settings : Settings} {input : List Char}
    {command : Command} {expression result : List Char}
    (h : (expression, result) ∈ recordings settings input command) :
    Reproduces expression result ∧ result ≠ ['0'] ∧ isComplete expression = true := by
  cases command with
  | eval => exact reproduces_of_mem_evalRecordings h
  | repl => exact reproduces_of_mem_keyRecordings h
  | list | clear | check => cases h

/-- The archive gained an entry for each of the calculations, in order. -/
def Records (clock : Clock) (calculations : List (List Char × List Char))
    (a b : Archive) : Prop :=
  ∃ new, clock.Stamps calculations new ∧ a.Gains b new

theorem records_nil (clock : Clock) {a : Archive}
    (h : a.history.entries.length ≤ a.history.limit) : Records clock [] a a :=
  ⟨[], clock.stamps_nil, .refl h⟩

/-- Recording looks at the clock once. -/
theorem records_record (clock : Clock) (a : Archive) (expression result : List Char) :
    Records clock [(expression, result)] a
      (a.record expression result (clock.reading 0)) :=
  ⟨_, ⟨rfl, rfl⟩, a.gains_record expression result (clock.reading 0)⟩

theorem Records.length_le {clock : Clock} {calculations : List (List Char × List Char)}
    {a b : Archive} (h : Records clock calculations a b) :
    b.history.entries.length ≤ b.history.limit := by
  obtain ⟨_, _, hGains⟩ := h
  exact hGains.length_le

theorem Records.append {clock : Clock} {calculations further : List (List Char × List Char)}
    {a b c : Archive} (h : Records clock calculations a b)
    (hFurther : Records (clock.after calculations.length) further b c) :
    Records clock (calculations ++ further) a c := by
  obtain ⟨new, hNew, hGains⟩ := h
  obtain ⟨newer, hNewer, hGainsMore⟩ := hFurther
  exact ⟨new ++ newer, hNew.append hNewer, hGains.trans hGainsMore⟩

namespace Repl

/-- The calculator after the lines of a session is the one after their keys,
whatever the clock is. -/
theorem snd_map_run {m : Type → Type} [Monad m] [LawfulMonad m] (now : m UInt64)
    (settings : Settings) (r : Repl) (lines : List (List Char)) :
    Prod.snd <$> r.run now settings lines =
      ((lines.takeWhile (!isFarewell ·)).flatMap
        (Key.ofTyping settings.asciiOperators)).foldlM (press now settings) r := by
  induction lines generalizing r with
  | nil => simp [run]
  | cons line lines ih =>
      rw [run, turn]
      cases hFarewell : isFarewell line with
      | true => simp [hFarewell]
      | false => simp [hFarewell, feed, ← ih]

/-- A key press moves the calculator and records what it has to. -/
theorem run_press (settings : Settings) (clock : Clock) {r : Repl} {a : Archive}
    (h : r.archive = some a) (hFits : a.history.entries.length ≤ a.history.limit) (key : Key) :
    let calculations :=
      if key = .equals then (r.session.press key settings.inputMode).recordings else []
    ∃ b, (r.press Clock.look settings key).run clock =
        ({ session := r.session.press key settings.inputMode, archive := some b },
          clock.after calculations.length) ∧
      Records clock calculations a b := by
  obtain ⟨s, archive⟩ := r
  cases h
  intro calculations
  have hCalculations : calculations =
      (if key = .equals then (s.press key settings.inputMode).record? else none).toList := by
    by_cases hEquals : key = .equals
    · subst key
      exact (s.toList_record?_press_equals settings.inputMode).symm
    · simp only [calculations, if_neg hEquals, Option.toList_none]
  cases hRecord : if key = .equals then (s.press key settings.inputMode).record? else none with
  | none =>
      rw [hRecord, Option.toList_none] at hCalculations
      rw [hCalculations]
      refine ⟨a, ?_, records_nil clock hFits⟩
      simp only [press, hRecord, StateT.run_pure, List.length_nil, Clock.after_zero]
      rfl
  | some p =>
      rw [hRecord, Option.toList_some] at hCalculations
      rw [hCalculations]
      refine ⟨a.record p.1 p.2 (clock.reading 0), ?_, records_record clock a p.1 p.2⟩
      simp only [press, hRecord]
      rfl

theorem run_foldlM_press (settings : Settings) (clock : Clock) {r : Repl} {a : Archive}
    (h : r.archive = some a) (hFits : a.history.entries.length ≤ a.history.limit)
    (keys : List Key) :
    let calculations := keyRecordings settings.inputMode r.session keys
    ∃ b, (keys.foldlM (press Clock.look settings) r).run clock =
        ({ session := r.session.pressAll keys settings.inputMode, archive := some b },
          clock.after calculations.length) ∧
      Records clock calculations a b := by
  induction keys generalizing clock r a with
  | nil =>
      obtain ⟨s, archive⟩ := r
      cases h
      refine ⟨a, ?_, records_nil clock hFits⟩
      rw [List.foldlM_nil, StateT.run_pure, keyRecordings, List.length_nil, Clock.after_zero]
      rfl
  | cons key keys ih =>
      obtain ⟨b, hPress, hRecords⟩ := run_press settings clock h hFits key
      let next : Repl := { session := r.session.press key settings.inputMode, archive := some b }
      have hNext : next.archive = some b := rfl
      obtain ⟨c, hRest, hRecordsRest⟩ := ih (clock.after _) hNext (Records.length_le hRecords)
      refine ⟨c, ?_, hRecords.append hRecordsRest⟩
      rw [List.foldlM_cons, StateT.run_bind, hPress]
      refine hRest.trans ?_
      rw [Clock.after_after, keyRecordings, List.length_append]
      rfl

end Repl

/-- Evaluating a text leaves the history file with what it has to record. -/
theorem run_runEval (settings : Settings) (clock : Clock) (input : List Char)
    (preview noHistory : Bool) (path : List Char) (stored : StoredFile) :
    ∃ b, ((runEval Clock.look settings input preview noHistory (some (path, stored))).run
        clock).1.2 = some (path, b.file) ∧
      Records clock (evalRecordings settings input noHistory)
        (Archive.ofFile stored settings.historyLimit) b := by
  have hFits := Archive.length_ofFile_le stored settings.historyLimit
  rw [runEval, evalRecordings]
  cases hFault : (evaluate (normalized settings input)).fault? with
  | some fault => exact ⟨_, rfl, by simpa using records_nil clock hFits⟩
  | none =>
      have hWorth : (!noHistory && (evaluate (normalized settings input)).display != ['0'] &&
            isComplete (evaluate (normalized settings input)).expression) = true ↔
          noHistory = false ∧ (evaluate (normalized settings input)).display ≠ ['0'] ∧
            isComplete (Text.collapse (normalized settings input)) = true := by
        simp [evaluate, and_assoc]
      simp only [true_and, ← hWorth]
      cases !noHistory && (evaluate (normalized settings input)).display != ['0'] &&
          isComplete (evaluate (normalized settings input)).expression with
      | false => exact ⟨_, rfl, records_nil clock hFits⟩
      | true => exact ⟨_, rfl, records_record ..⟩

theorem run_runRepl (settings : Settings) (clock : Clock) (input : List Char) (path : List Char)
    (stored : StoredFile) :
    ∃ b, ((runRepl Clock.look settings input (some (path, stored))).run clock).1.2 =
        some (path, b.file) ∧
      Records clock (recordings settings input .repl)
        (Archive.ofFile stored settings.historyLimit) b := by
  let start : Repl :=
    { session := .new, archive := some (Archive.ofFile stored settings.historyLimit) }
  obtain ⟨b, hKeys, hRecords⟩ := Repl.run_foldlM_press settings clock (r := start) rfl
    (Archive.length_ofFile_le stored settings.historyLimit) (pressedKeys settings input)
  have hKept : ((runRepl Clock.look settings input (some (path, stored))).run clock).1.2 =
      HistoryFile.keep (some (path, stored))
        ((Prod.snd <$> start.run Clock.look settings (linesFrom [] input)).run clock).1.archive :=
    rfl
  refine ⟨b, ?_, hRecords⟩
  rw [hKept, Repl.snd_map_run]
  exact congrArg (fun steps => HistoryFile.keep (some (path, stored)) steps.1.archive) hKeys

end CommandLine

end KeypadCalculator
