import Nabla.Compiled

/-!
# Sessions

Logs and settings are shared: whoever holds one sees it change. A session keeps them, and values refer
to them by their place in it. What a step has changed stays changed when the step fails.
-/

namespace Nabla

structure Session where
  logs : LogBook := {}
  settings : List Settings := []
  /-- How many fields have been made. -/
  fields : FieldId := 0
deriving Inhabited

/-- Steps of a session, which may fail. -/
abbrev SessionM := ExceptT Error (StateM Session)

namespace Session

/-- Runs an operation on the logs of the session. -/
def onLogs {α : Type} (act : StateM LogBook α) : SessionM α :=
  modifyGet fun s =>
    let (a, logs) := act.run s.logs
    (a, { s with logs })

/-- Runs an operation that reports to the logs of the session. -/
def reporting {α : Type} (act : Reporting α) : SessionM α := do
  match ← onLogs act.run with
  | .ok a => return a
  | .error e => throw e

def getLog (id : LogId) : SessionM Log := do return (← get).logs.get id

/-! ## Settings -/

def addSettings (settings : Settings) : SessionM SettingsId :=
  modifyGet fun s => (s.settings.length, { s with settings := s.settings ++ [settings] })

def getSettings (id : SettingsId) : SessionM Settings := do
  return (← get).settings.getD id {}

def setSettings (id : SettingsId) (settings : Settings) : SessionM Unit :=
  modify fun s => { s with settings := s.settings.set id settings }

/-- A value as settings of which an option is asked: nothing stands for the settings that are in force
from the start. -/
def toSettings (key : Settings.Key) : Value → SessionM Settings
  | .settings id => getSettings id
  | .plain .null => return {}
  | other => throw (other.lacks key.text)

/-- A value of which something is asked that only settings have. -/
def settingsWith (member : String) : Value → SessionM SettingsId
  | .settings id => return id
  | other => throw (other.lacks member)

/-- Reads options from a record into shared settings. -/
def readSettings (id : SettingsId) (data : Json) : SessionM Unit := do
  (← getSettings id).checkMember "parse"
  let (settings, outcome) := (← getSettings id).read data
  setSettings id settings
  outcome

/-- The names of the registered options. -/
def optionNames (id : SettingsId) : SessionM (List String) := do
  (← getSettings id).checkMember "get_keys"
  (← getSettings id).keys

/-- Gives an option of shared settings a type. -/
def register (id : SettingsId) (key : String) (type : OptionType) (definition : Json) :
    SessionM Unit := do
  (← getSettings id).checkMember "register"
  setSettings id (← (← getSettings id).register key type definition)

/-! ## Values -/

/-- The text of a value on its own. -/
def textOf (v : Value) : SessionM String := do
  let s ← get
  (v.text s.logs s.settings : Except Error String)

/-- The name that a value stands for: that of a variable, or its text. -/
def nameOf : Value → SessionM String
  | .expr (.var x) => return x
  | other => textOf other

/-- The parts of a value one after the other. -/
def elementsOf (v : Value) : SessionM (List Value) := do
  (v.elements (← get).logs : Except Error (List Value))

/-! ## Fields -/

/-- Runs an operation that reports to the log that a value refers to, or to a new one if there is none.
Any other value will do as long as nothing is reported. -/
def reportingTo {α : Type} (log : Value) (act : LogId → SessionM α) : SessionM α := do
  match log with
  | .log id => act id
  | .plain .null => act (← onLogs LogBook.fresh)
  | other =>
    let id ← onLogs LogBook.fresh
    let a ← act id
    if (← getLog id).entries.isEmpty then return a else throw (other.lacks "add_error")

/-- A field as a value of its own. -/
def keep (F : Field) : SessionM Value :=
  modifyGet fun s => (.field s.fields F, { s with fields := s.fields + 1 })

/-- A new field as a value. Its log is shown with it, so it has to be one. -/
def keepWith (log : Value) (F : Field) : SessionM Value :=
  match log with
  | .log _ | .plain .null => keep F
  | other => throw (other.lacks "entries")

/-- The field with the components of a function. -/
def field (x log : Value) : SessionM Field :=
  reportingTo log fun id => do
    match x with
    | .lambda f => onLogs (Field.ofLambda f id)
    | .field _ F =>
      if F.isEmpty then onLogs (Field.ofNothing (← F.text) id) else throw (x.lacks "components")
    | other => throw (other.lacks "is_empty")

def emptyField (log : Value) : SessionM Field :=
  reportingTo log fun id => return Field.empty id

/-- The gradient of a function, with the log that reports go to. -/
def gradientIn (x : Value) (id : LogId) : SessionM Field := do
  match x with
  | .lambda f => reporting (Field.gradient f id)
  | .field _ F =>
    if F.isEmpty then onLogs (Field.noGradient (← F.text) id) else throw (x.lacks "is_array")
  | other => throw (other.lacks "is_empty")

def gradient (x log : Value) : SessionM Field := reportingTo log (gradientIn x)

def laplacian (x log : Value) : SessionM Lambda :=
  reportingTo log fun id => do reporting (← gradientIn x id).divergence

/-- Works on a field as it is, or on the field with the components of a function. Of anything else the
operation `member` is asked for. -/
def onField {α : Type} (member : String) (x log : Value) (act : Field → SessionM α) : SessionM α := do
  match x with
  | .field _ F => act F
  | .lambda f => reportingTo log fun id => do act (← onLogs (Field.ofLambda f id))
  | other => throw (other.lacks member)

def divergence (x log : Value) : SessionM Lambda :=
  onField "divergence" x log fun F => reporting F.divergence

/-- The curl as a value. The log is not looked at if there is a field already. -/
def curl (x log : Value) : SessionM Value := do
  let F ← onField "curl" x log fun F => reporting F.curl
  match x with
  | .field _ _ => keep F
  | _ => keepWith log F

/-- One pass of simplification. -/
def simplify : Value → SessionM Value
  | .expr e => do return .expr (← e.simplify)
  | .lambda f => do return .lambda (← f.simplify)
  | .field _ F => do keep (← reporting F.simplify)
  | other => throw (other.lacks "simplify")

end Session

end Nabla
