import Nabla.Expr.Derivative
import Nabla.Expr.Eval
import Nabla.Expr.Simplify

/-!
# Functions of named parameters

A lambda lists its parameters and has a body: one expression, or several for a function with an array
as its value, or none. A lambda without a body is what an operation returns that could not be
performed.
-/

namespace Nabla

inductive Body where
  | none
  | scalar (e : Expr)
  | array (es : List Expr)
deriving Inhabited

structure Lambda where
  parameters : List String
  body : Body
deriving Inhabited

namespace Lambda

def empty : Lambda := ⟨[], .none⟩

def isEmpty (f : Lambda) : Bool :=
  match f.body with
  | .none => true
  | _ => false

def isArray (f : Lambda) : Bool :=
  match f.body with
  | .array _ => true
  | _ => false

/-- The expressions of the body; a scalar function has one. -/
def components (f : Lambda) : List Expr :=
  match f.body with
  | .none => []
  | .scalar e => [e]
  | .array es => es

/-- Applies `g` to each expression of the body. Without a body the parameters are dropped too. -/
def mapBody (f : Lambda) (g : Expr → Except Error Expr) : Except Error Lambda :=
  match f.body with
  | .none => .ok empty
  | .scalar e => do return ⟨f.parameters, .scalar (← g e)⟩
  | .array es => do return ⟨f.parameters, .array (← es.mapM g)⟩

def same (f g : Lambda) : Bool :=
  f.parameters == g.parameters &&
    match f.body, g.body with
    | .none, .none => true
    | .scalar a, .scalar b => a == b
    | .array as, .array bs => Expr.sameAll as bs
    | _, _ => false

def text (f : Lambda) : String :=
  let head := "(" ++ commaList f.parameters ++ ") => "
  match f.body with
  | .none => "(empty)"
  | .scalar e => head ++ e.text
  | .array es => head ++ "[" ++ commaList (es.map Expr.text) ++ "]"

/-- The text of a function inside a list: a record of its parts. -/
def quoted (f : Lambda) : String :=
  let body := match f.body with
    | .none => Json.null.text
    | .scalar e => e.quoted
    | .array es => tupleText (es.map Expr.quoted)
  "Lambda(parameters=" ++ tupleText (f.parameters.map Text.quote) ++ ", body=" ++ body ++ ")"

/-! ## Calculus -/

/-- Differentiates each component `n` times with respect to the variable `x`. -/
def differentiateTimes (x : String) : Nat → Lambda → Except Error Lambda
  | 0, f => .ok f
  | n + 1, f => do differentiateTimes x n (← f.mapBody fun e => e.differentiate x)

def simplify (f : Lambda) : Except Error Lambda := f.mapBody Expr.simplify

/-! ## Evaluation -/

/-- A name that a value cannot be bound to. -/
def reserved : String := "self"

/-- Bindings for an expression, refused if the reserved name is among them. -/
def checkNames (bindings : Expr.Bindings) : Except Error Expr.Bindings :=
  if (bindings.find? reserved).isSome then .error .reservedName else .ok bindings

/-- Evaluates the body where the arguments stand for the parameters in their order. `read` turns the
bound arguments into numbers; it is asked anew for each component. Of a repeated parameter the last
argument counts. -/
def evaluateWith {α : Type u} (read : Table α → Except Error Expr.Bindings) (f : Lambda)
    (args : List α) : Except Error (NdArray Float) :=
  let one (e : Expr) : Except Error (NdArray Float) := do
    e.eval (← read (Table.ofPairs (f.parameters.zip args)))
  match f.body with
  | .none => .error .emptyLambda
  | body =>
    if args.length ≠ f.parameters.length then
      .error (.argumentCount f.parameters args.length)
    else
      match body with
      | .scalar e => one e
      | _ => do NdArray.stack (← f.components.mapM one)

/-- Evaluates the body at numbers and arrays of numbers. -/
def evaluate (f : Lambda) (args : List (NdArray Float)) : Except Error (NdArray Float) :=
  f.evaluateWith checkNames args

end Lambda

end Nabla
