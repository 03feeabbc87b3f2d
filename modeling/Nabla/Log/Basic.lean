import Nabla.Log.Entry

/-!
# Logs

A log collects what an operation has to say when it cannot be performed. Entries are only ever added
at the end.
-/

namespace Nabla

structure Log where
  entries : List (Entry String) := []
  /-- Lines for debugging, which are no entries. -/
  debug : List String := []
deriving Inhabited

namespace Log

def add (l : Log) (e : Entry String) : Log := { l with entries := l.entries ++ [e] }

def addDebug (l : Log) (line : String) : Log := { l with debug := l.debug ++ [line] }

/-- Adds the entries of another log as they are now. -/
def merge (l other : Log) : Log := { l with entries := l.entries ++ other.entries }

def count (l : Log) (v : Severity) : Nat := l.entries.countP fun e => e.level.is v

/-- The texts of the entries. -/
def lines (l : Log) : Except Error (List String) := l.entries.mapM Entry.text

/-- One line per entry. -/
def text (l : Log) : Except Error String := do
  return String.join ((← l.lines).map (· ++ "\n"))

/-! ## Grouping -/

/-- The details of an entry apart from severity and message. -/
def detail (e : Entry String) : List String :=
  [e.time, e.category, e.subject, e.found, e.expected]

/-- Adds a row to the group of a name; a new group comes last. -/
def addTo {α : Type u} (groups : Table (List α)) (name : String) (a : α) : Table (List α) :=
  groups.set name ((groups.find? name).getD [] ++ [a])

/-- Rows by severity and message. -/
abbrev Groups := Table (Table (List (List String)))

def addEntry (groups : Groups) (e : Entry String) : Except Error Groups := do
  let severity ← e.level.name
  return groups.set severity (addTo ((groups.find? severity).getD []) e.message (detail e))

/-- The entries by severity and message, each in order of first occurrence. -/
def groups (l : Log) : Except Error Groups := l.entries.foldlM addEntry []

/-! ## As a table -/

/-- The name of the first column, which numbers the rows of the table. -/
def indexName : String := "Time"

def columns : List String := ["Severity", "Message", "Class", "Subject", "Value", "Expected value"]

/-- The rows of the table, the time first. -/
def rows (l : Log) : Except Error (List (List String)) := l.entries.mapM (Entry.row Json.text)

/-- A field of a comma-separated line. It is quoted if it holds a comma, a quotation mark or a line
end, and quotation marks in it are doubled. -/
def csvField (s : String) : String :=
  let cs := s.toList
  if cs.any fun c => c == ',' || c == '"' || c == '\n' then
    String.ofList ('"' :: cs.flatMap (fun c => if c == '"' then [c, c] else [c]) ++ ['"'])
  else s

def csvLine (fields : List String) : String := ",".intercalate (fields.map csvField) ++ "\n"

/-- The table as comma-separated text. -/
def csv (l : Log) : Except Error String := do
  return csvLine (indexName :: columns) ++ String.join ((← l.rows).map csvLine)

/-- What is printed of a log without entries. -/
def emptyTable : String :=
  "Empty DataFrame\nColumns: [" ++ commaList columns ++ "]\nIndex: []\n"

end Log

/-- Which log of a book. -/
abbrev LogId := Nat

/-- Logs that several holders share: whoever adds to a log adds for all of them. -/
structure LogBook where
  logs : List Log := []
  /-- How many entries have been made. -/
  made : EntryId := 0
  /-- The time that new entries carry. -/
  now : String := ""
deriving Inhabited

namespace LogBook

def get (b : LogBook) (id : LogId) : Log := b.logs.getD id {}

def set (b : LogBook) (id : LogId) (l : Log) : LogBook := { b with logs := b.logs.set id l }

theorem get_set_self (b : LogBook) {id : LogId} (l : Log) (h : id < b.logs.length) :
    (b.set id l).get id = l := by
  simp [get, set, List.getD, h]

theorem get_set_of_ne (b : LogBook) {id other : LogId} (l : Log) (h : other ≠ id) :
    (b.set id l).get other = b.get other := by
  simp [get, set, List.getD, List.getElem?_set_ne h.symm]

/-- Opens a new log. -/
def fresh : StateM LogBook LogId :=
  modifyGet fun b => (b.logs.length, { b with logs := b.logs ++ [{}] })

/-- The given log, or a new one. -/
def orFresh : Option LogId → StateM LogBook LogId
  | some id => return id
  | none => fresh

def update (id : LogId) (f : Log → Log) : StateM LogBook Unit :=
  modify fun b => b.set id (f (b.get id))

/-- The number of a new entry. -/
def nextEntry : StateM LogBook EntryId :=
  modifyGet fun b => (b.made, { b with made := b.made + 1 })

/-- Adds an entry with the present time. -/
def report (log : LogId) (level : Level) (message subject category found expected : String) :
    StateM LogBook Unit := do
  let id ← nextEntry
  modify fun b => b.set log <| (b.get log).add
    { id, time := b.now, level, message, subject, category, found, expected }

end LogBook

end Nabla
