import Nabla.Expr.Subst
import Nabla.Session.Basic

/-!
# Expressions and functions in a session

Operations whose operands may be shared: names are the texts of values, and a log or a field stands
for its parts where a list is wanted.
-/

namespace Nabla.Session

/-! ## Building -/

/-- The function with the given parameters and body. -/
def toLambda (parameters body : Value) : SessionM Lambda := do
  let names ← (← elementsOf parameters).mapM nameOf
  return ⟨names, ← body.toBody⟩

/-- The function with the given parameters and one component per part of `bodies`. -/
def toArrayLambda (parameters bodies : Value) : SessionM Lambda := do
  let parameters ← elementsOf parameters
  let bodies ← elementsOf bodies
  let names ← parameters.mapM nameOf
  return ⟨names, .array (← bodies.mapM fun v => (v.toExpr : Except Error Expr))⟩

/-! ## Evaluation -/

/-- Values where numbers are wanted. -/
def spreadAll (values : List Value) : SessionM (List Value) := do
  return Value.spreadAll (← get).logs values

/-- The value of an expression where the variables are bound by name. -/
def evalAt (x : Value) (bindings : Table Value) : SessionM Value := do
  let logs := (← get).logs
  x.evalAt (bindings.map fun (name, v) => (name, v.spread logs))

/-- The value of an expression where the variables are bound by any keys. Of two keys with one name
the later counts. -/
def evalAtKeys (x : Value) (pairs : List (Value × Value)) : SessionM Value := do
  let given ← (Value.entries pairs : Except Error _)
  let _ ← x.nodeWith "eval"
  let named ← given.mapM fun (key, v) => do return (← nameOf key, v)
  evalAt x (Table.ofPairs named)

/-- The value of a function or a field at a point. -/
def evaluate (x : Value) (args : List Value) : SessionM Value := do
  x.evaluate (← spreadAll args)

/-- Calls a compiled function. -/
def call (c : Compiled) (args : List Value) : SessionM Value := do
  c.call (← spreadAll args)

/-- A compiled Jacobian at a point. -/
def callJacobian (c : CompiledJacobian) (args : List Value) : SessionM SparseMatrix := do
  c.call (← spreadAll args)

/-! ## Substitution -/

/-- Replaces variables all at once. Every entry has to be an expression, also one whose name is given
again later. -/
def substitute (x : Value) (pairs : List (Value × Value)) : SessionM Expr := do
  let given ← (Value.entries pairs : Except Error _)
  let e ← x.nodeWith "subs"
  let named ← given.mapM fun (key, v) => do
    let name ← nameOf key
    return (name, ← v.toExpr)
  e.substitute (Table.ofPairs named).find?

/-! ## Equality -/

/-- Whether two values are equal. Equal values have to be fit for keys. -/
def equal (a b : Value) : SessionM Bool := do
  let eq ← (a.equal (← get).logs b : Except Error Bool)
  if eq then
    a.checkKey
    b.checkKey
  return eq

/-! ## Positions -/

/-- What stands at a position of a value. -/
def itemOf (x position : Value) : SessionM Value := do
  match x with
  | .field _ F => return .lambda (← Value.item .tuple F.functions position)
  | .log id => return .ofEntry (← Value.item .list (← getLog id).entries position)
  | .list items => Value.item .list items position
  | .tuple items => Value.item .tuple items position
  | .array a => Value.rowAt a position
  | .plain (.str s) =>
    return .plain (.str (String.singleton (← Value.item .text s.toList position)))
  | .plain (.obj fields) => do
    position.checkKey
    match position with
    | .plain (.str key) => return .ofJson (← (Json.obj fields).field key)
    | other => throw (.missingItem other.quoted)
  | other => throw (.notSubscriptable other.kind)

end Nabla.Session
