import Nabla.Error

/-!
# Failures by name

The failures that belong to the calculus itself can also be described from outside, by name and with
details under keywords. The description is worded like the failure of the same name.
-/

namespace Nabla

inductive Fault where
  | arity
  | unboundVariable
  | unknownFunction
  | emptyLambda
deriving DecidableEq, Repr

namespace Fault

def all : List Fault := [arity, unboundVariable, unknownFunction, emptyLambda]

def name : Fault → String
  | arity => "ArityError"
  | unboundVariable => "UnboundVariableError"
  | unknownFunction => "UnknownFunctionError"
  | emptyLambda => "EmptyLambdaError"

def ofName? (s : String) : Option Fault := all.find? fun f => s = f.name

/-- Whether the failure is also one of a bad value. -/
def ofValue : Fault → Bool
  | unboundVariable => true
  | _ => false

/-- The keywords that have to be given. -/
def required : Fault → List String
  | arity => ["function_name", "n_args"]
  | unboundVariable => ["name"]
  | unknownFunction => ["function_name"]
  | emptyLambda => []

/-- The keywords that may be given. -/
def optional : Fault → List String
  | arity => ["expected", "message"]
  | _ => ["message"]

/-- The text that the message starts with unless another is given. -/
def lead : Fault → String
  | arity => arityLead
  | unboundVariable => unboundLead
  | unknownFunction => unknownFunctionLead
  | emptyLambda => emptyLambdaText

/-- The word by which messages name the making of a description. -/
def maker (f : Fault) : String := f.name ++ ".__init__()"

/-- Refuses a keyword that is not known, then a set of keywords that is not complete. -/
def checkKeywords (f : Fault) (given : Table Json) : Except Error Unit :=
  match given.keys.find? fun key => !(f.required ++ f.optional).contains key with
  | some key =>
    if key = "self" then .error (.repeatedKeyword f.maker key)
    else .error (.unexpectedKeyword f.maker key)
  | none => match f.required.filter fun key => !given.keys.contains key with
    | [] => .ok ()
    | missing => .error (.missingKeywords f.maker missing)

/-- The text of a detail. -/
def detail (given : Table Json) (key : String) : String := ((given.find? key).getD .null).text

/-- The number of arguments that was expected, unless it is left open. -/
def expected? (given : Table Json) : Option String :=
  match given.find? "expected" with
  | none | some .null => none
  | some j => some j.text

/-- The message of a described failure. A message that is the whole text is kept as it was given. -/
def describe (f : Fault) (given : Table Json) : Except Error Json := do
  f.checkKeywords given
  let lead := (given.find? "message").getD (.str f.lead)
  match f with
  | arity =>
    return .str (arityMessage lead.text (detail given "function_name") (detail given "n_args")
      (expected? given))
  | unboundVariable => return .str (namedMessage lead.text (detail given "name"))
  | unknownFunction => return .str (namedMessage lead.text (detail given "function_name"))
  | emptyLambda => return lead

end Fault

end Nabla
