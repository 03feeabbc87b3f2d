import Nabla.Expr.Basic
import Nabla.Json.Convert

/-!
# Expressions as records

The `type` of a record says which node it is. Reading ignores fields that it does not ask for, takes
any number or number text as the value of a constant, and knows a function by either of its names. A
variable keeps whatever name it is given; a function goes by the text of its name, and a list or a
record is refused as one.
-/

namespace Nabla.Expr

/-- The record of a node: its type, then its fields. -/
def record (type : String) (fields : List (String × Json)) : Json :=
  .obj (("type", .str type) :: fields)

def callRecord (name : String) (args : List Json) : Json :=
  record "Func" [("name", .str name), ("args", .arr args)]

def pairRecord (symbol : String) (left right : Json) : Json :=
  record "BinOp" [("op", .str symbol), ("left", left), ("right", right)]

mutual

/-- The record of an expression. A blank node and plain data have none. -/
def toJson : Expr → Except Error Json
  | const x => .ok (record "Const" [("value", .float x)])
  | var name => .ok (record "Var" [("name", .str name)])
  | neg e => do return record "Neg" [("operand", ← toJson e)]
  | binary op a b => do return pairRecord op.symbol (← toJson a) (← toJson b)
  | call f a => do return callRecord f.name [← toJson a]
  | powCall a b => do return callRecord Callee.powName [← toJson a, ← toJson b]
  | unknown name a rest => do return callRecord name ((← toJson a) :: (← toJsonAll rest))
  | blank => .error .unwritable
  | pair a b => do return pairRecord "" (← toJson a) (← toJson b)
  | datum j => .error (.noMember j.kind "to_dict")
  | oddVar n => .ok (record "Var" [("name", n.value)])

def toJsonAll : List Expr → Except Error (List Json)
  | [] => .ok []
  | e :: es => do return (← toJson e) :: (← toJsonAll es)

end

/-- The operator that a value names. -/
def operatorOf : Json → Except Error BinOp
  | .str s => match BinOp.ofSymbol? s with
    | some op => .ok op
    | none => .error (.unknownOperator s)
  | .arr _ => .error (.unhashable "list")
  | .obj _ => .error (.unhashable "dict")
  | other => .error (.unknownOperator other.text)

/-- What a value is when it is read: itself, an expression, and a sequence of expressions. A record
asks each of its fields for the one it needs. -/
structure Reading where
  raw : Json
  expr : Except Error Expr
  parts : Except Error (List Expr)

/-- The field of a record that has been read. -/
def pick (fields : Table Reading) (key : String) : Except Error Reading :=
  match fields.find? key with
  | some r => .ok r
  | none => .error (.missingKey key)

/-- The expression of a record whose fields have been read. -/
def build (fields : Table Reading) : Except Error Expr := do
  let type ← pick fields "type"
  match type.raw with
  | .str "Const" => return const (← (← pick fields "value").raw.toFloat)
  | .str "Var" => return ofName (← pick fields "name").raw
  | .str "Neg" => return neg (← (← pick fields "operand").expr)
  | .str "BinOp" =>
    let op ← operatorOf (← pick fields "op").raw
    let left ← (← pick fields "left").expr
    let right ← (← pick fields "right").expr
    return binary op left right
  | .str "Func" =>
    let name := (← pick fields "name").raw
    let args ← (← pick fields "args").parts
    name.checkKey
    apply name.text args
  | other => throw (.unknownNode other.text)

/-- The reading of a value that is no record: it has no type. -/
def noRecord (j : Json) : Except Error Expr := do
  let _ ← j.field "type"
  throw (.unknownNode j.text)

/-- Expressions one after the other; the first failure counts. -/
def inOrder : List Reading → Except Error (List Expr)
  | [] => .ok []
  | r :: rs => do return (← r.expr) :: (← inOrder rs)

/-- The parts of a value that are texts: no text is an expression. -/
def textParts (j : Json) : Except Error (List Expr) := do
  match ← j.elements with
  | [] => return []
  | part :: _ => return [← noRecord part]

mutual

def read : Json → Reading
  | .obj fields => ⟨.obj fields, build (readFields fields), textParts (.obj fields)⟩
  | .arr items => ⟨.arr items, noRecord (.arr items), inOrder (readItems items)⟩
  | .null => ⟨.null, noRecord .null, textParts .null⟩
  | .bool b => ⟨.bool b, noRecord (.bool b), textParts (.bool b)⟩
  | .int n => ⟨.int n, noRecord (.int n), textParts (.int n)⟩
  | .float x => ⟨.float x, noRecord (.float x), textParts (.float x)⟩
  | .str s => ⟨.str s, noRecord (.str s), textParts (.str s)⟩

def readItems : List Json → List Reading
  | [] => []
  | item :: rest => read item :: readItems rest

def readFields : List (String × Json) → List (String × Reading)
  | [] => []
  | (key, value) :: rest => (key, read value) :: readFields rest

end

/-- Reads an expression from a record. -/
def ofJson (j : Json) : Except Error Expr := (read j).expr

end Nabla.Expr
