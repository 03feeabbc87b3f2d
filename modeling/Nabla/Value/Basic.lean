import Nabla.Field
import Nabla.NdArray.Text
import Nabla.Settings

/-!
# Values of a session

What a step of a session can be given and can return: plain data, expressions, functions, fields,
arrays, and references to logs and settings. The conversions say which value may stand for which,
and how the refusal of the others is worded.
-/

namespace Nabla

/-- Which settings of a session. -/
abbrev SettingsId := Nat

/-- Which field of a session. Two fields that are made alike are still two fields. -/
abbrev FieldId := Nat

inductive Value where
  /-- Plain data other than a list. -/
  | plain (j : Json)
  | list (items : List Value)
  /-- A list that cannot be changed. -/
  | tuple (items : List Value)
  | expr (e : Expr)
  | lambda (f : Lambda)
  | field (id : FieldId) (F : Field)
  | array (x : NdArray Float)
  | log (id : LogId)
  | entry (e : Entry Value)
  | settings (id : SettingsId)
  | severity (v : Severity)

namespace Value

instance : Inhabited Value := ⟨plain .null⟩

mutual

/-- Plain data as a value. -/
def ofJson : Json → Value
  | .arr items => list (ofItems items)
  | .null => plain .null
  | .bool b => plain (.bool b)
  | .int n => plain (.int n)
  | .float x => plain (.float x)
  | .str s => plain (.str s)
  | .obj fields => plain (.obj fields)

def ofItems : List Json → List Value
  | [] => []
  | j :: rest => ofJson j :: ofItems rest

end

/-- The word by which messages name a kind of value. -/
def kind : Value → String
  | plain j => j.kind
  | list _ => "list"
  | tuple _ => "tuple"
  | expr e => e.kind
  | lambda _ => "Lambda"
  | field _ _ => "VectorField"
  | array _ => "ndarray"
  | log _ => "Logger"
  | entry _ => "LogEntry"
  | settings _ => "CalculusOptions"
  | severity _ => "LogSeverity"

/-- The word for a kind of value in messages about what it lacks. -/
def longKind : Value → String
  | array _ => "numpy.ndarray"
  | other => other.kind

/-- The failure to find a member in a value. -/
def lacks (v : Value) (member : String) : Error := .noMember v.longKind member

/-- A number as a value: an array without dimensions is its one entry. -/
def ofArray (x : NdArray Float) : Value :=
  match x.shape with
  | [] => plain (.float (x.entry []))
  | _ => array x

/-! ## As expressions -/

/-- A value where an expression is wanted: numbers become constants, truth values do not. -/
def toExpr : Value → Except Error Expr
  | expr e => .ok e
  | plain (.bool b) => .error (.booleanOperand b)
  | plain (.int n) => do return .const (← floatOfInt n)
  | plain (.float x) => .ok (.const x)
  | other => .error (.notConvertible other.kind)

mutual

/-- Plain data, if a value is nothing else. -/
def data? : Value → Option Json
  | plain j => some j
  | list items => (dataOfAll? items).map .arr
  | _ => none

def dataOfAll? : List Value → Option (List Json)
  | [] => some []
  | v :: rest => do return (← data? v) :: (← dataOfAll? rest)

end

/-- A value as an operand without an operator: plain data is kept as it is. -/
def toOperand (v : Value) : Except Error Expr :=
  match v.data? with
  | some j => .ok (.datum j)
  | none => v.toExpr

/-- A part of an expression as a value. -/
def ofPart : Expr → Value
  | .datum j => ofJson j
  | e => expr e

/-- A value that has to be an expression already. -/
def node (task : Task) : Value → Except Error Expr
  | expr e => .ok e
  | other => .error (.unsupported task other.kind)

/-- A value of which something is asked that only an expression has. -/
def nodeWith (member : String) : Value → Except Error Expr
  | expr e => .ok e
  | other => .error (other.lacks member)

/-- The variable that a value names, if it is a text or a variable. -/
def target? : Value → Option String
  | plain (.str s) => some s
  | expr (.var x) => some x
  | _ => none

/-- Fails if an array does not count as yes or no: it has to hold one number. -/
def checkTruth (x : NdArray Float) : Except Error Unit :=
  match NdArray.count x.shape with
  | 0 => .error (.ambiguous true)
  | 1 => .ok ()
  | _ => .error (.ambiguous false)

/-- The variable with respect to which expressions are differentiated. What is neither a text nor a
variable names none, and an array cannot even be held against a name. -/
def target (es : List Expr) (v : Value) : Except Error String := do
  if let array x := v then
    unless es.all fun e => e.variableNames.isEmpty do checkTruth x
  return v.target?.getD (Expr.unusedName es)

/-! ## As texts -/

mutual

/-- The text of a value inside a list. What is shared has no text there. -/
def quoted : Value → String
  | plain j => j.quoted
  | list items => "[" ++ commaList (quotedItems items) ++ "]"
  | tuple items => tupleText (quotedItems items)
  | expr e => e.quoted
  | lambda f => f.quoted
  | severity v => v.name
  | array x => x.quoted
  | field _ _ | log _ | entry _ | settings _ => ""

def quotedItems : List Value → List String
  | [] => []
  | v :: rest => quoted v :: quotedItems rest

end

mutual

/-- The text of a value on its own. Logs and settings are looked up. -/
def text (logs : LogBook) (options : List Settings) : Value → Except Error String
  | plain j => .ok j.text
  | list items => .ok (list items).quoted
  | tuple items => .ok (tuple items).quoted
  | expr e => .ok e.text
  | lambda f => .ok f.text
  | field _ F => F.text
  | array x => .ok x.text
  | log id => (logs.get id).text
  | entry e => textOfEntry logs options e
  | settings id => (options.getD id {}).text
  | severity v => .ok v.name

/-- The text of an entry. The severity is looked at before the details. -/
def textOfEntry (logs : LogBook) (options : List Settings) : Entry Value → Except Error String
  | ⟨id, time, level, message, subject, _, found, expected⟩ => do
    let _ ← level.name
    let time ← text logs options time
    let subject ← text logs options subject
    let found ← text logs options found
    Entry.text ⟨id, time, level, message, subject, "", found, expected⟩

end

/-! ## As sequences -/

/-- An entry of a log as a value. -/
def ofEntry (e : Entry String) : Value := entry (e.map fun s => plain (.str s))

/-- The parts of a value one after the other. -/
def elements (logs : LogBook) : Value → Except Error (List Value)
  | list items | tuple items => .ok items
  | plain j => do return (← j.elements).map ofJson
  | field _ F => .ok (F.functions.map lambda)
  | log id => .ok ((logs.get id).entries.map ofEntry)
  | array x => match x.shape with
    | [] => .error (.notIterable (array x).kind)
    | n :: _ => .ok ((List.range n).map fun i => ofArray (x.row i))
  | other => .error (.notIterable other.kind)

/-- Fails if a value has no length. -/
def checkLength : Value → Except Error Unit
  | plain (.str _) | plain (.obj _) | plain (.arr _) | list _ | tuple _ | array _ | log _
  | field _ _ => .ok ()
  | other => .error (.noLength other.kind)

mutual

/-- A value in which logs and fields are lists of their parts. -/
def spread (logs : LogBook) : Value → Value
  | list items | tuple items => list (spreadAll logs items)
  | field _ F => list (F.functions.map lambda)
  | log id => list ((logs.get id).entries.map ofEntry)
  | other => other

def spreadAll (logs : LogBook) : List Value → List Value
  | [] => []
  | v :: rest => spread logs v :: spreadAll logs rest

end

/-! ## As arrays -/

/-- The shape of nested lists as far as it is even, and whether it is even to the end. -/
structure Outline where
  shape : List Nat
  even : Bool

def Outline.ofParts (parts : List Outline) : Outline where
  shape := NdArray.rowShape (parts.map Outline.shape)
  even := parts.all Outline.even && NdArray.even (parts.map Outline.shape)

mutual

def outline : Value → Outline
  | list items | tuple items => .ofParts (outlines items)
  | array x => ⟨x.shape, true⟩
  | _ => ⟨[], true⟩

def outlines : List Value → List Outline
  | [] => []
  | v :: rest => outline v :: outlines rest

end

/-- A number in an array: what is missing is the undefined value. -/
def toNumber : Value → Except Error Float
  | plain .null => .ok (0.0 / 0.0)
  | plain j => j.toFloat
  | other => .error (.notReal other.kind)

mutual

/-- The numbers in nested lists, in reading order. -/
def numbers : Value → Except Error (List Float)
  | list items | tuple items => numbersOf items
  | array x => .ok x.toList
  | plain j => do return [← (plain j).toNumber]
  | other => .error (.notReal other.kind)

def numbersOf : List Value → Except Error (List Float)
  | [] => .ok []
  | v :: rest => do return (← numbers v) ++ (← numbersOf rest)

end

/-- How many dimensions an array may have. -/
def maxDimensions : Nat := 64

/-- Nested lists as an array. The shape is looked at first, then the numbers. -/
def toArray (v : Value) : Except Error (NdArray Float) := do
  let o := v.outline
  if maxDimensions < o.shape.length then throw (.tooManyDimensions maxDimensions)
  if o.even then return .ofRowMajor o.shape (← v.numbers).toArray
  else throw (.ragged o.shape)

/-- Bound values as numbers, in their order. The reserved name is refused before any of them is looked
at. -/
def toBindings (t : Table Value) : Except Error Expr.Bindings :=
  if (t.find? Lambda.reserved).isSome then .error .reservedName
  else t.mapM fun (key, v) => do return (key, ← v.toArray)

/-! ## As counts -/

/-- How often something is to be done. Truth values count as one and zero. -/
def toCount : Value → Except Error Int
  | plain (.int n) => .ok n
  | plain (.bool b) => .ok (if b then 1 else 0)
  | array _ => .error .arrayIndex
  | other => .error (.notInteger other.kind)

/-- The order of a derivative: a number that is not negative, and whole. -/
def toOrder (v : Value) : Except Error Nat := do
  match v with
  | plain (.int n) => if n < 0 then throw (.negativeOrder (intText n))
  | plain (.float x) => if x < 0 then throw (.negativeOrder (Decimal.text x))
  | plain (.bool _) => pure ()
  | array x =>
    checkTruth x
    if x.toList.any (· < 0) then throw (.negativeOrder x.text)
  | other => throw (.unorderable other.kind)
  return (← v.toCount).toNat

/-- The item at a position; a negative position counts from the end. A position is a machine word. -/
def itemAt {α : Type} (sequence : Sequence) (items : List α) (n : Int) : Except Error α :=
  if n < -0x8000000000000000 ∨ 0x8000000000000000 ≤ n then .error .hugePosition
  else
    let i := if n < 0 then n + items.length else n
    match if i < 0 then none else items[i.toNat]? with
    | some a => .ok a
    | none => .error (.outOfRange sequence)

/-- The item at a position that is given by a value. -/
def item {α : Type} (sequence : Sequence) (items : List α) : Value → Except Error α
  | plain (.int n) => itemAt sequence items n
  | plain (.bool b) => itemAt sequence items (if b then 1 else 0)
  | array _ => .error .arrayIndex
  | other => .error (.badPosition sequence other.longKind)

/-- The row or number at a position of an array. -/
def rowAt (x : NdArray Float) : Value → Except Error Value
  | plain (.int n) =>
    let size := x.shape.headD 0
    let i := if n < 0 then n + size else n
    if 0 ≤ i && i < size then .ok (ofArray (x.row i.toNat)) else .error (.outOfBounds n size)
  | _ => .error .badIndex

end Value

end Nabla
