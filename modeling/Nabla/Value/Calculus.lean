import Nabla.Json.Printer
import Nabla.Lambda.Json
import Nabla.Value.Equality

/-!
# Calculus on values

The operations of the calculus where the operands are values. Each converts its operands, in an order
that decides which of two failures counts, and then does its work on expressions and functions.
-/

namespace Nabla.Value

/-! ## Building -/

/-- An operator between two values, of which one at least is an expression. An array on the left would
have to hold expressions, and it only holds numbers. -/
def combine (op : BinOp) (a b : Value) : Except Error Value := do
  match a, b with
  | array x, expr _ => if x.toList.isEmpty then return array x else throw (.notReal op.kind)
  | _, _ => return expr (.binary op (← a.toExpr) (← b.toExpr))

/-- A value with a minus before it. Truth values count as numbers. -/
def negate : Value → Except Error Value
  | expr e => .ok (expr (.neg e))
  | plain (.bool b) => .ok (plain (.int (if b then -1 else 0)))
  | plain (.int n) => .ok (plain (.int (-n)))
  | plain (.float x) => .ok (plain (.float (-x)))
  | array x => .ok (array (x.map Arithmetic.double.neg))
  | other => .error (.badOperand "-" other.kind)

/-- A value with a plus before it. -/
def affirm : Value → Except Error Value
  | plain (.bool b) => .ok (plain (.int (if b then 1 else 0)))
  | expr e => .ok (expr e)
  | plain (.int n) => .ok (plain (.int n))
  | plain (.float x) => .ok (plain (.float x))
  | array x => .ok (array x)
  | other => .error (.badOperand "+" other.kind)

/-- The call of a function. All arguments are converted before they are counted. -/
def apply (name : String) (args : List Value) : Except Error Expr := do
  Expr.apply name (← args.mapM toExpr)

/-- The parameters of the function that makes a call of a known function, and what messages call it. -/
def maker? : Callee → Option (String × List String)
  | .unary .abs => some ("abs_()", ["x"])
  | .unary f => some (f.name ++ "()", ["x"])
  | .pow => some ("pow_()", ["base", "exponent"])
  | .unknown _ => none

/-- The call of a known function. The arguments are counted before they are converted. -/
def make (name : String) (args : List Value) : Except Error Expr := do
  let found := args.length
  if let some (maker, parameters) := maker? (.ofName name) then
    if parameters.length < found then
      throw (.surplusArguments maker parameters.length found)
    if found < parameters.length then throw (.missingKeywords maker (parameters.drop found))
  apply name args

/-- A value as the body of a function. -/
def toBody : Value → Except Error Body
  | plain .null => .ok .none
  | list items | tuple items => do return .array (← items.mapM toExpr)
  | other => do return .scalar (← other.toExpr)

/-! ## Asking -/

/-- A value of which something is asked that only a function of named parameters has. -/
def lambdaWith (member : String) : Value → Except Error Lambda
  | lambda f => .ok f
  | other => .error (other.lacks member)

/-- A value of which something is asked that only a field has. -/
def fieldWith (member : String) : Value → Except Error Field
  | field _ F => .ok F
  | other => .error (other.lacks member)

/-- A value that is described as a function. A field can only tell whether it is empty. -/
def describedLambda : Value → Except Error Lambda
  | field i F => .error ((field i F).lacks "is_array")
  | other => other.lambdaWith "is_empty"

/-- A value that is described as a field. Its length is asked for first. -/
def describedField (v : Value) : Except Error Field := do
  v.checkLength
  v.fieldWith "is_empty"

/-- What a call calls and with what. -/
def callParts (v : Value) : Except Error (Callee × List Expr) := do
  match (← v.nodeWith "is_known").call? with
  | some parts => return parts
  | none => throw (v.lacks "is_known")

/-- The written form of an expression or function. -/
def render : Value → Except Error String
  | expr e => do return (← e.toJson).render
  | lambda f => do return (← f.toJson).render
  | other => .error (other.lacks "to_json")

/-! ## Evaluation -/

/-- The value of an expression where the variables are bound by name. -/
def evalAt (x : Value) (bindings : Table Value) : Except Error Value := do
  let e ← x.nodeWith "eval"
  return ofArray (← e.eval (← toBindings bindings))

/-- The value of a function or a field at a point. -/
def evaluate (x : Value) (args : List Value) : Except Error Value := do
  match x with
  | lambda f => return ofArray (← f.evaluateWith toBindings args)
  | field _ F => return ofArray (← F.evaluateWith toBindings args)
  | other => throw (other.lacks "evaluate")

/-! ## Derivatives and simplification -/

/-- The derivative of an expression to the given order. -/
def differentiate (x var order : Value) : Except Error Expr := do
  let e ← x.nodeWith "diff"
  match ← order.toOrder with
  | 0 => return e
  | n => e.differentiateTimes (← var.target [e]) n

/-- The derivative of a function to the given order. -/
def differentiateLambda (x var order : Value) : Except Error Lambda := do
  let f ← x.lambdaWith "derivative"
  match ← order.toOrder with
  | 0 => return f
  | n => f.differentiateTimes (← var.target f.components) n

/-- The derivative of what ought to be an expression. -/
def derivative (x var : Value) : Except Error Expr := do
  let e ← x.node .differentiate
  e.differentiate (← var.target [e])

/-- One pass of simplification over what ought to be an expression. -/
def simplifyOnce (x : Value) : Except Error Expr := do
  (← x.node .simplify).simplify

/-- Passes of simplification over what ought to be an expression. Without a pass nothing is asked of
it. -/
def simplifyFull (x limit : Value) : Except Error Value := do
  match (← limit.toCount).toNat with
  | 0 => return x
  | passes + 1 => return expr (← (← x.node .simplify).simplifyFull (passes + 1))

/-- Passes of simplification over the body of a function, as many as the settings allow. The setting
is only looked at where there is something to simplify. -/
def simplifyLambda (f : Lambda) (settings : Settings) : Except Error Lambda :=
  f.mapBody fun e => do
    let limit ← (ofJson settings.maxPasses).toCount
    e.simplifyFull limit.toNat

end Nabla.Value
