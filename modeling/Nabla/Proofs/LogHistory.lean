import Nabla.Proofs.LogGroups
import Nabla.Proofs.Sequence
import Nabla.Session.Log

/-!
# What logs hold

Several logs are written to in turn. Each log holds what was added to it, in order: a step adds to one
log only, and what it takes from another log it takes as it is at that moment. So the entries of a log
after a run are told by `LogStep.history`, and its counts and groups by its entries.
-/

namespace Nabla

namespace Session

/-! ## Entries and lines -/

theorem run_textOf (v : Value) (s : Session) :
    (textOf v).run.run s = (v.text s.logs s.settings, s) := run_liftM _ s

/-- The entry that a remark makes now, if all of its parts have a text. -/
def Remark.entry (r : Remark) (severity : Severity) (s : Session) : Except Error (Entry String) := do
  let message ← r.message.text s.logs s.settings
  let subject ← r.subject.text s.logs s.settings
  let category ← r.category.text s.logs s.settings
  let found ← r.found.text s.logs s.settings
  let expected ← r.expected.text s.logs s.settings
  return {
    id := s.logs.made
    time := s.logs.now
    level := .known severity
    message, subject, category, found, expected }

/-- The logs with one entry more. -/
def withEntry (s : Session) (log : LogId) (e : Entry String) : Session :=
  { s with logs := LogBook.set { s.logs with made := s.logs.made + 1 } log ((s.logs.get log).add e) }

theorem run_textOf_bind {α : Type} (v : Value) (f : String → SessionM α) (s : Session) :
    (textOf v >>= f).run.run s = match v.text s.logs s.settings with
      | .ok text => (f text).run.run s
      | .error err => (.error err, s) := by
  rw [run_bind_of_keeps (run_textOf v s)]
  cases v.text s.logs s.settings <;> rfl

theorem state_log (log : LogId) (severity : Severity) (r : Remark) (s : Session) :
    ((Session.log log (.known severity) r).run.run s).2 = match r.entry severity s with
      | .ok e => s.withEntry log e
      | .error _ => s := by
  simp only [Session.log, Remark.entry, run_textOf_bind]
  cases r.message.text s.logs s.settings with
  | error _ => rfl
  | ok _ => cases r.subject.text s.logs s.settings with
    | error _ => rfl
    | ok _ => cases r.category.text s.logs s.settings with
      | error _ => rfl
      | ok _ => cases r.found.text s.logs s.settings with
        | error _ => rfl
        | ok _ => cases r.expected.text s.logs s.settings <;> rfl

theorem state_debug (log : LogId) (args : List Value) (s : Session) :
    ((Session.debug log args).run.run s).2 = s ∨
      ∃ line, ((Session.debug log args).run.run s).2.logs =
        s.logs.set log ((s.logs.get log).addDebug line) := by
  unfold Session.debug
  rw [run_bind_of_keeps (run_mapM_of_keeps (fun v => run_textOf v s) args)]
  cases args.mapM fun v => v.text s.logs s.settings with
  | error _ => exact .inl rfl
  | ok texts => exact .inr ⟨" ".intercalate texts, rfl⟩

end Session

theorem LogBook.get_congr {b b' : LogBook} (h : b.logs = b'.logs) (log : LogId) :
    b.get log = b'.get log := by
  rw [get, get, h]

/-! ## Steps -/

/-- What is done to the logs of a session. -/
inductive LogStep where
  /-- Adds an entry. A text alone is a remark of which all else is empty. -/
  | add (log : LogId) (severity : Severity) (remark : Session.Remark)
  | debug (log : LogId) (args : List Value)
  /-- Adds the entries of a log, which may be the same one, or of none. -/
  | merge (log : LogId) (other : Option LogId)

namespace LogStep

/-- The log that a step writes to. -/
def log : LogStep → LogId
  | add log _ _ | debug log _ | merge log _ => log

/-- The session after a step, also after one that fails. -/
def after (step : LogStep) (s : Session) : Session :=
  match step with
  | add log severity remark => ((Session.log log (.known severity) remark).run.run s).2
  | debug log args => ((Session.debug log args).run.run s).2
  | merge log (some other) => ((Session.merge log (.log other)).run.run s).2
  | merge log none => ((Session.merge log (.plain .null)).run.run s).2

/-- The entries that a step adds to its log. -/
def added (step : LogStep) (s : Session) : List (Entry String) :=
  match step with
  | add _ severity remark => (remark.entry severity s).toOption.toList
  | debug _ _ | merge _ none => []
  | merge _ (some other) => (s.logs.get other).entries

theorem logs_after (step : LogStep) (s : Session) :
    ((step.after s).logs.logs = s.logs.logs ∧ step.added s = []) ∨
      ∃ l, (step.after s).logs.logs = (s.logs.set step.log l).logs ∧
        l.entries = (s.logs.get step.log).entries ++ step.added s := by
  cases step with
  | add log severity remark =>
    rw [after, Session.state_log, added]
    cases remark.entry severity s with
    | error _ => exact .inl ⟨rfl, rfl⟩
    | ok e => exact .inr ⟨_, rfl, rfl⟩
  | debug log args =>
    rw [after]
    rcases Session.state_debug log args s with hs | ⟨line, hlogs⟩
    · exact .inl ⟨by rw [hs], rfl⟩
    · refine .inr ⟨(s.logs.get log).addDebug line, ?_, (List.append_nil _).symm⟩
      rw [hlogs]
      rfl
  | merge log other =>
    cases other with
    | none => exact .inl ⟨rfl, rfl⟩
    | some other => exact .inr ⟨_, rfl, rfl⟩

variable {step : LogStep} {s : Session} {log : LogId}

theorem get_after_of_ne (h : step.log ≠ log) : (step.after s).logs.get log = s.logs.get log := by
  rcases logs_after step s with ⟨hlogs, -⟩ | ⟨l, hlogs, -⟩
  · exact LogBook.get_congr hlogs log
  · rw [LogBook.get_congr hlogs, LogBook.get_set_of_ne _ _ h.symm]

theorem entries_after (h : step.log < s.logs.logs.length) :
    ((step.after s).logs.get step.log).entries = (s.logs.get step.log).entries ++ step.added s := by
  rcases logs_after step s with ⟨hlogs, hadded⟩ | ⟨l, hlogs, hentries⟩
  · rw [LogBook.get_congr hlogs, hadded, List.append_nil]
  · rw [LogBook.get_congr hlogs, LogBook.get_set_self _ _ h, hentries]

theorem length_after (step : LogStep) (s : Session) :
    (step.after s).logs.logs.length = s.logs.logs.length := by
  rcases logs_after step s with ⟨hlogs, -⟩ | ⟨l, hlogs, -⟩
  · rw [hlogs]
  · rw [hlogs, LogBook.set, List.length_set]

/-! ## Runs -/

/-- The session after steps one after the other. -/
def run (steps : List LogStep) (s : Session) : Session := steps.foldl (fun s step => step.after s) s

/-- What steps one after the other add to a log, each with the logs as it finds them. -/
def history : List LogStep → Session → LogId → List (Entry String)
  | [], _, _ => []
  | step :: steps, s, log =>
    (if step.log = log then step.added s else []) ++ history steps (step.after s) log

theorem entries_run (steps : List LogStep) (h : log < s.logs.logs.length) :
    ((run steps s).logs.get log).entries = (s.logs.get log).entries ++ history steps s log := by
  induction steps generalizing s with
  | nil => exact (List.append_nil _).symm
  | cons step steps ih =>
    have hstep : ((step.after s).logs.get log).entries =
        (s.logs.get log).entries ++ if step.log = log then step.added s else [] := by
      split
      · rename_i hlog
        subst hlog
        exact entries_after h
      · rename_i hlog
        rw [get_after_of_ne hlog, List.append_nil]
    show ((run steps (step.after s)).logs.get log).entries = _
    rw [ih (by rw [length_after]; exact h), hstep, history, List.append_assoc]

theorem get_run_of_ne {steps : List LogStep} (h : ∀ step ∈ steps, step.log ≠ log) :
    (run steps s).logs.get log = s.logs.get log := by
  induction steps generalizing s with
  | nil => rfl
  | cons step steps ih =>
    obtain ⟨hstep, hsteps⟩ := List.forall_mem_cons.mp h
    show (run steps (step.after s)).logs.get log = _
    rw [ih hsteps, get_after_of_ne hstep]

end LogStep

/-! ## Severities -/

namespace Session

/-- The entries of all logs have a severity. -/
def Graded (s : Session) : Prop := ∀ l ∈ s.logs.logs, l.Graded

theorem Graded.get {s : Session} (h : s.Graded) (log : LogId) : (s.logs.get log).Graded := by
  rcases Nat.lt_or_ge log s.logs.logs.length with hlog | hlog
  · have hget : s.logs.get log = s.logs.logs[log] := by simp [LogBook.get, List.getD, hlog]
    rw [hget]
    exact h _ (List.getElem_mem hlog)
  · have hget : s.logs.get log = {} := by simp [LogBook.get, List.getD, hlog]
    rw [hget]
    exact Log.graded_empty

end Session

theorem Session.Remark.level_of_entry {r : Remark} {severity : Severity} {s : Session}
    {e : Entry String} (h : r.entry severity s = .ok e) : e.level = .known severity := by
  unfold entry at h
  obtain ⟨message, -, h⟩ := bind_eq_ok_iff.mp h
  obtain ⟨subject, -, h⟩ := bind_eq_ok_iff.mp h
  obtain ⟨category, -, h⟩ := bind_eq_ok_iff.mp h
  obtain ⟨found, -, h⟩ := bind_eq_ok_iff.mp h
  obtain ⟨expected, -, h⟩ := bind_eq_ok_iff.mp h
  cases h
  rfl

namespace LogStep

variable {s : Session}

theorem graded_of_mem_added {step : LogStep} (h : s.Graded) {e : Entry String}
    (he : e ∈ step.added s) : ∃ v, e.level = .known v := by
  cases step with
  | add log severity remark =>
    rw [added] at he
    cases hentry : remark.entry severity s with
    | error _ =>
      rw [hentry] at he
      cases he
    | ok e' =>
      rw [hentry] at he
      obtain rfl : e = e' := List.mem_singleton.mp he
      exact ⟨severity, Session.Remark.level_of_entry hentry⟩
  | debug log args => cases he
  | merge log other =>
    cases other with
    | none => cases he
    | some other => exact h.get other e he

theorem graded_after (step : LogStep) (h : s.Graded) : (step.after s).Graded := by
  rcases logs_after step s with ⟨hlogs, -⟩ | ⟨l, hlogs, hentries⟩
  · rw [Session.Graded, hlogs]
    exact h
  · intro l' hl'
    rw [hlogs] at hl'
    rcases List.mem_or_eq_of_mem_set hl' with hl' | rfl
    · exact h l' hl'
    · intro e he
      rw [hentries, List.mem_append] at he
      exact he.elim (h.get _ e) (graded_of_mem_added h)

theorem graded_run (steps : List LogStep) (h : s.Graded) : (run steps s).Graded := by
  induction steps generalizing s with
  | nil => exact h
  | cons step steps ih => exact ih (step.graded_after h)

end LogStep

/-- After any steps a log holds what it held before and then what was added to it, in order; what is
written to other logs later does not show in it. Its entries are counted once each, and the groups
hold them all. -/
theorem logs_hold_what_was_added (steps : List LogStep) {s : Session} (hs : s.Graded) {log : LogId}
    (hlog : log < s.logs.logs.length) :
    let l := (LogStep.run steps s).logs.get log
    l.entries = (s.logs.get log).entries ++ LogStep.history steps s log ∧
    (∀ later : List LogStep, (∀ step ∈ later, step.log ≠ log) →
      ((LogStep.run (steps ++ later) s).logs.get log).entries = l.entries) ∧
    l.count .information + l.count .warning + l.count .error = l.entries.length ∧
    ∃ g, l.groups = .ok g ∧ l.GroupedAs g := by
  intro l
  have hgraded : l.Graded := (LogStep.graded_run steps hs).get log
  refine ⟨LogStep.entries_run steps hlog, fun later hlater => ?_, hgraded.count_add_count, _,
    hgraded.groups_eq, hgraded.groupedAs⟩
  have hrun : LogStep.run (steps ++ later) s = LogStep.run later (LogStep.run steps s) :=
    List.foldl_append
  rw [hrun, LogStep.get_run_of_ne hlater]

/-- A log that takes the entries of another, which is written to afterwards, and then its own. -/
theorem logs_hold_what_was_added_merged :
    let s : Session := { logs := { logs := [{}, {}], now := "12:34:56" } }
    let said (text : String) : Session.Remark := { message := .plain (.str text) }
    let steps : List LogStep :=
      [.add 0 .error (said "bad"), .add 1 .information (said "fine"), .merge 0 (some 1),
        .add 1 .error (said "late"), .merge 0 (some 0), .debug 0 [.plain .null], .merge 0 none]
    let l := (LogStep.run steps s).logs.get 0
    s.Graded ∧ 0 < s.logs.logs.length ∧
      l.entries.map (·.message) = ["bad", "fine", "bad", "fine"] ∧
      l.count .information + l.count .warning + l.count .error = 4 ∧
      ∃ g, l.groups = .ok g ∧ l.GroupedAs g := by
  intro s said steps l
  have hs : s.Graded :=
    List.forall_mem_cons.mpr ⟨Log.graded_empty, List.forall_mem_singleton.mpr Log.graded_empty⟩
  have hlog : 0 < s.logs.logs.length := by decide
  obtain ⟨hentries, -, hcount, hgroups⟩ := logs_hold_what_was_added steps hs hlog
  have hmessages : (LogStep.history steps s 0).map (·.message) = ["bad", "fine", "bad", "fine"] := rfl
  have hheld : l.entries.map (·.message) = ["bad", "fine", "bad", "fine"] := by
    rw [hentries]
    exact hmessages
  refine ⟨hs, hlog, hheld, ?_, hgroups⟩
  rw [hcount, ← List.length_map, hheld]
  rfl

end Nabla
