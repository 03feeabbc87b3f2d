import Nabla.Session.Basic

/-!
# Logging in a session

What is logged may be any value; the log keeps its text.
-/

namespace Nabla.Session

/-- A value of which something is asked that only a log has. -/
def logWith (member : String) : Value → SessionM LogId
  | .log id => return id
  | other => throw (other.lacks member)

/-- A value that is described as a log. Its length is asked for first. -/
def describedLog (v : Value) : SessionM LogId := do
  v.checkLength
  logWith "has_logs" v

/-- A value as a severity, if its text names one. Any other value stays as it is. -/
def toSeverity (v : Value) : Except Error Value := do
  v.checkKey
  match v with
  | .plain (.str s) => match Severity.ofName? s with
    | some severity => return .severity severity
    | none => return v
  | _ => return v

/-- A value as the severity of an entry. -/
def toLevel (v : Value) : Except Error Level := do
  match ← toSeverity v with
  | .severity v => return .known v
  | .expr (.const x) => return .number x
  | other => return .other other.longKind

/-- What is said in an entry. -/
structure Remark where
  message : Value := .plain (.str "")
  subject : Value := .plain (.str "")
  category : Value := .plain (.str "")
  found : Value := .plain (.str "")
  expected : Value := .plain (.str "")

/-- Adds an entry and tells how many there are. -/
def log (id : LogId) (level : Level) (r : Remark) : SessionM Nat := do
  let message ← textOf r.message
  let subject ← textOf r.subject
  let category ← textOf r.category
  let found ← textOf r.found
  let expected ← textOf r.expected
  onLogs (LogBook.report id level message subject category found expected)
  return (← getLog id).entries.length

/-- Adds a line for debugging and tells all of them. -/
def debug (id : LogId) (args : List Value) : SessionM (List String) := do
  let texts ← args.mapM textOf
  onLogs (LogBook.update id fun l => l.addDebug (" ".intercalate texts))
  return (← getLog id).debug

/-- Adds the entries that another log has now. -/
def merge (id : LogId) : Value → SessionM Unit
  | .log other => do
    let added ← getLog other
    onLogs (LogBook.update id fun l => l.merge added)
  | .plain .null => return
  | other => throw (other.lacks "entries")

/-- An entry that belongs to no log. Subject, category and what was found are kept as they are. -/
def entry (time : Value) (level : Level) (r : Remark) : SessionM (Entry Value) := do
  let now := (← get).logs.now
  return {
    id := ← onLogs LogBook.nextEntry
    time := match time with
      | .plain .null => .plain (.str now)
      | given => given
    level
    message := ← textOf r.message
    subject := r.subject
    category := r.category
    found := r.found
    expected := ← textOf r.expected }

end Nabla.Session
