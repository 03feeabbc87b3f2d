import Nabla.Error

/-!
# Log entries

An entry says when something was noticed, how severe it is, what it is about, what was found and what
was expected instead.
-/

namespace Nabla

inductive Severity where
  | error
  | warning
  | information
deriving DecidableEq, Repr

namespace Severity

def all : List Severity := [error, warning, information]

def name : Severity → String
  | error => "Error"
  | warning => "Warning"
  | information => "Information"

def ofName? (s : String) : Option Severity := all.find? fun v => s = v.name

@[simp] theorem ofName?_name (v : Severity) : ofName? v.name = some v := by cases v <;> rfl

end Severity

/-- The severity of an entry. A value that names none is accepted. A constant shows as its number, and
anything else fails when it is to be shown. -/
inductive Level where
  | known (severity : Severity)
  | number (x : Float)
  | other (kind : String)

namespace Level

/-- What is shown of a severity. -/
def label : Level → Except Error Json
  | known v => .ok (.str v.name)
  | number x => .ok (.float x)
  | other kind => .error (.noMember kind "value")

def name (l : Level) : Except Error String := do return (← l.label).text

def is (l : Level) (v : Severity) : Bool :=
  match l with
  | known w => w = v
  | number _ | other _ => false

end Level

/-- Which entry. Two entries that say the same are still two entries. -/
abbrev EntryId := Nat

/-- An entry whose details are of type `α`. In a log they are texts. -/
structure Entry (α : Type) where
  id : EntryId
  time : α
  level : Level
  message : String
  /-- What the entry is about. -/
  subject : α
  /-- The kind of thing that the subject is. -/
  category : α
  found : α
  expected : String

namespace Entry

variable {α β : Type}

def map (f : α → β) (e : Entry α) : Entry β :=
  { id := e.id, time := f e.time, level := e.level, message := e.message, subject := f e.subject,
    category := f e.category, found := f e.found, expected := e.expected }

/-- The text of an entry; the category is not shown. -/
def text (e : Entry String) : Except Error String := do
  return e.time ++ " " ++ (← e.level.name) ++ ": " ++ e.message ++ " " ++ e.subject ++ " " ++
    e.found ++ " " ++ e.expected

/-- All details of an entry in the order of the columns of a log. -/
def row (ofJson : Json → α) (e : Entry α) : Except Error (List α) := do
  return [e.time, ofJson (← e.level.label), ofJson (.str e.message), e.category, e.subject, e.found,
    ofJson (.str e.expected)]

end Entry

end Nabla
