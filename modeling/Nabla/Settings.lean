import Nabla.Json.Convert

/-!
# Settings

The options of the calculus. Each holds whatever it was given. A registered option also has a type,
and reading options from a record converts the values to their types, one after the other: what was
read before a value that cannot be converted stays read.
-/

namespace Nabla

/-- What an option can be registered as. -/
inductive OptionType where
  | int
  | bool
  | float
  | str
deriving DecidableEq, Repr

namespace OptionType

def all : List OptionType := [int, bool, float, str]

def name : OptionType → String
  | int => "int"
  | bool => "bool"
  | float => "float"
  | str => "str"

def ofName? (s : String) : Option OptionType := all.find? fun t => s = t.name

/-- A value as a value of the type. -/
def convert : OptionType → Json → Except Error Json
  | int, j => do return .int (← j.toInt)
  | bool, j => .ok (.bool j.truthy)
  | float, j => do return .float (← j.toFloat)
  | str, j => .ok (.str j.text)

end OptionType

namespace Settings

/-- Names that everything has, settings included. -/
def systemNames : List String :=
  ["__class__", "__delattr__", "__dict__", "__dir__", "__doc__", "__eq__", "__format__", "__ge__",
    "__getattribute__", "__getstate__", "__gt__", "__hash__", "__init__", "__init_subclass__",
    "__le__", "__lt__", "__module__", "__ne__", "__new__", "__reduce__", "__reduce_ex__", "__repr__",
    "__setattr__", "__sizeof__", "__str__", "__subclasshook__", "__weakref__"]

/-- What settings have besides options and a name. -/
def memberNames : List String :=
  ["register", "get_keys", "to_dict", "parse", "registered_properties"] ++ systemNames

/-- The options by their meaning. The name of the set can be made an option as well, and so can its
members. -/
inductive Key where
  /-- How many passes the full simplification may take. -/
  | maxPasses
  /-- Whether generated code is turned into machine code. -/
  | accelerate
  /-- What the machine code does about a division by zero. -/
  | errorModel
  /-- Whether a compiled function carries its code as documentation. -/
  | document
  | name
  | member (i : Fin memberNames.length)
deriving DecidableEq, Repr

namespace Key

def all : List Key :=
  [maxPasses, accelerate, errorModel, document, name] ++ (List.finRange memberNames.length).map member

def text : Key → String
  | maxPasses => "simplify_max_iter"
  | accelerate => "use_numba"
  | errorModel => "error_model"
  | document => "add_doc_string"
  | name => "name"
  | member i => memberNames.get i

def ofText? (s : String) : Option Key := all.find? fun k => s = k.text

end Key

structure Property where
  key : Key
  type : OptionType
  definition : Json

/-- What is registered from the start. -/
def standard : List Property := [
  ⟨.maxPasses, .int, .str "Maximum number of passes of the full simplification"⟩,
  ⟨.accelerate, .bool, .str "Compile the generated code with numba"⟩,
  ⟨.errorModel, .str, .str "numba error model"⟩,
  ⟨.document, .bool, .str "Attach the generated code as docstring"⟩]

end Settings

structure Settings where
  name : Json := .str "CalculusOptions"
  maxPasses : Json := .int 10
  accelerate : Json := .bool true
  errorModel : Json := .str "numpy"
  document : Json := .bool true
  /-- Values that have taken the place of members. -/
  members : Fin Settings.memberNames.length → Option Json := fun _ => none
  registered : List Settings.Property := Settings.standard

namespace Settings

def get (s : Settings) : Key → Json
  | .maxPasses => s.maxPasses
  | .accelerate => s.accelerate
  | .errorModel => s.errorModel
  | .document => s.document
  | .name => s.name
  | .member i => (s.members i).getD .null

def set (s : Settings) : Key → Json → Settings
  | .maxPasses, j => { s with maxPasses := j }
  | .accelerate, j => { s with accelerate := j }
  | .errorModel, j => { s with errorModel := j }
  | .document, j => { s with document := j }
  | .name, j => { s with name := j }
  | .member i, j => { s with members := fun k => if k = i then some j else s.members k }

@[simp] theorem get_set_self (s : Settings) (k : Key) (j : Json) : (s.set k j).get k = j := by
  cases k <;> simp [get, set]

theorem get_set_of_ne (s : Settings) {k l : Key} (j : Json) (h : l ≠ k) :
    (s.set k j).get l = s.get l := by
  cases k <;> cases l <;> simp_all [get, set]

@[simp] theorem registered_set (s : Settings) (k : Key) (j : Json) :
    (s.set k j).registered = s.registered := by
  cases k <;> rfl

/-- The value that has taken the place of a member. -/
def replaced? (s : Settings) (member : String) : Option Json :=
  match Key.ofText? member with
  | some (.member i) => s.members i
  | _ => none

/-- Fails if a value that cannot be called has taken the place of a member. -/
def checkMember (s : Settings) (member : String) : Except Error Unit :=
  match s.replaced? member with
  | some j => .error (.notCallable j.kind)
  | none => .ok ()

/-- Fails if a value has taken the place of the registry, of which something is asked. -/
def checkRegistry (s : Settings) (asked : String) : Except Error Unit :=
  match s.replaced? "registered_properties" with
  | some j => .error (.noMember j.kind asked)
  | none => .ok ()

/-- The names of the registered options, as long as they can be asked for. -/
def keys (s : Settings) : Except Error (List String) := do
  s.checkRegistry "keys"
  return s.registered.map fun p => p.key.text

/-- The registered options with their values. -/
def toList (s : Settings) : List (String × Json) :=
  s.registered.map fun p => (p.key.text, s.get p.key)

/-- The registered options with their values, as long as they can be asked for. -/
def pairs (s : Settings) : Except Error (List (String × Json)) := do
  s.checkMember "to_dict"
  s.checkRegistry "keys"
  return s.toList

def text (s : Settings) : Except Error String := do
  match s.name with
  | .str name =>
    return name ++ ": " ++ commaList ((← s.pairs).map fun (k, j) => k ++ "=" ++ j.text)
  | other => throw (.notAddable other.kind)

/-- The word by which messages name the making of settings. -/
def maker : String := "CalculusOptions.__init__()"

/-- Sets one option by its keyword. -/
def setKeyword (s : Settings) (key : String) (j : Json) : Except Error Settings :=
  if key = "self" then .error (.repeatedKeyword maker key)
  else match Key.ofText? key with
    | some .name | some (.member _) | none => .error (.unexpectedKeyword maker key)
    | some k => .ok (s.set k j)

/-- Settings with some options given by keyword. -/
def ofKeywords (given : List (String × Json)) : Except Error Settings :=
  given.foldlM (fun s (key, j) => s.setKeyword key j) {}

def property? (s : Settings) (key : String) : Option Property :=
  s.registered.find? fun p => p.key.text = key

/-- Fails if an option cannot be given a value: three of the names that everything has are fixed. -/
def checkValue (key : Key) (j : Json) : Except Error Unit :=
  match key.text with
  | "__class__" => .error (.fixedClass j.kind)
  | "__dict__" => .error (.fixedFields j.kind)
  | "__weakref__" => .error (.fixedMember "OptionsTemplate" key.text)
  | _ => .ok ()

/-- A value as it is read into an option. -/
def readValue (p : Property) (j : Json) : Except Error Json := do
  let v ← p.type.convert j
  checkValue p.key v
  return v

/-- Sets the registered options among the fields, in their order, up to the first value that cannot
be converted. Other fields are ignored. -/
def readFields : List (String × Json) → Settings → Settings × Except Error Unit
  | [], s => (s, .ok ())
  | (key, j) :: rest, s => match s.checkRegistry "get" with
    | .error e => (s, .error e)
    | .ok () => match s.property? key with
      | none => readFields rest s
      | some p => match readValue p j with
        | .ok v => readFields rest (s.set p.key v)
        | .error e => (s, .error e)

/-- Reads options from a record. -/
def read (s : Settings) : Json → Settings × Except Error Unit
  | .obj fields => readFields fields s
  | other => (s, .error (.noMember other.kind "items"))

/-- Gives an option a type. -/
def register (s : Settings) (key : String) (type : OptionType) (definition : Json) :
    Except Error Settings :=
  match Key.ofText? key with
  | none => .error (.noProperty s.name.text key)
  | some k => do
    s.checkRegistry "keys"
    if (s.property? key).isSome then throw (.alreadyRegistered key)
    return { s with registered := s.registered ++ [⟨k, type, definition⟩] }

end Settings

end Nabla
