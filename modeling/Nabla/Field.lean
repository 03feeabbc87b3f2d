import Nabla.Lambda.Basic
import Nabla.Log.Basic

/-!
# Vector fields

A field of dimension `n` has `n` components, all functions of the same `n` parameters. An operation
that is not defined gives an empty field, or a lambda without a body, and a log says why.
-/

namespace Nabla

structure Field where
  parameters : List String
  bodies : List Expr
  /-- The log that the operations on the field report to. -/
  log : LogId
  balanced : parameters.length = bodies.length

/-- Operations that report to logs and may meet an unfinished expression. What has been reported
stays reported when an operation fails. -/
abbrev Reporting := ExceptT Error (StateM LogBook)

namespace Field

def empty (log : LogId) : Field := ⟨[], [], log, rfl⟩

def isEmpty (F : Field) : Bool := F.bodies.isEmpty

def dim (F : Field) : Nat := F.bodies.length

def category : String := "VectorField"

/-- Reports an error about a field. -/
def refuse (log : LogId) (message : String) (subject found expected : String) :
    StateM LogBook Unit :=
  LogBook.report log (.known .error) message subject category found expected

/-- The empty field that is made of something without components. -/
def ofNothing (subject : String) (log : LogId) : StateM LogBook Field := do
  refuse log "Cannot build a VectorField from an empty Lambda. Aborting VectorField construction."
    subject "" ""
  return empty log

/-- The field with the components of a lambda, if it has as many as parameters. -/
def ofLambda (f : Lambda) (log : LogId) : StateM LogBook Field := do
  if f.isEmpty then ofNothing f.text log
  else if h : f.parameters.length = f.components.length then
    return ⟨f.parameters, f.components, log, h⟩
  else
    let parameters := natText f.parameters.length
    let values := natText f.components.length
    refuse log ("Unequal number of parameters (" ++ parameters ++ ") and return values (" ++ values ++
      "). Aborting VectorField construction.") f.text values parameters
    return empty log

def toLambda (F : Field) : Lambda := ⟨F.parameters, .array F.bodies⟩

/-- The components as functions of their own. -/
def functions (F : Field) : List Lambda := F.bodies.map fun e => ⟨F.parameters, .scalar e⟩

/-! ## Differential operators -/

/-- The derivatives of an expression with respect to each parameter. -/
def partials (parameters : List String) (e : Expr) : Except Error (List Expr) :=
  parameters.mapM e.differentiate

/-- The empty field that is the gradient of something without one. -/
def noGradient (subject : String) (log : LogId) : StateM LogBook Field := do
  refuse log "The gradient is only defined for scalar fields. Aborting Gradient." subject "" ""
  return empty log

/-- The field of the partial derivatives of a scalar function. -/
def gradient (f : Lambda) (log : LogId) : Reporting Field := do
  match f.body with
  | .scalar e =>
    let ds ← partials f.parameters e
    ofLambda ⟨f.parameters, .array ds⟩ log
  | _ => noGradient f.text log

/-- The derivative of each component with respect to the parameter at its place. -/
def ownDerivatives (F : Field) : Except Error (List Expr) :=
  (F.bodies.zip F.parameters).mapM fun (e, p) => e.differentiate p

/-- The sum of the derivatives of the components, each with respect to the parameter at its place. -/
def divergence (F : Field) : Reporting Lambda := do
  match ← F.ownDerivatives with
  | [] =>
    refuse F.log "No functions in VectorField. Aborting Divergence." "" "0" ">= 1"
    return Lambda.empty
  | d :: ds => return ⟨F.parameters, .scalar (ds.foldl Expr.add d)⟩

/-- The derivative of one component minus the derivative of another. -/
def rotation (e : Expr) (p : String) (e' : Expr) (p' : String) : Except Error Expr := do
  let d ← e.differentiate p
  let d' ← e'.differentiate p'
  return Expr.sub d d'

/-- The curl of a field in three dimensions. The middle component is the derivative of the last
component with respect to the first parameter minus that of the first with respect to the last. -/
def curl (F : Field) : Reporting Field := do
  match F.bodies, F.parameters with
  | [f, g, h], [x, y, z] =>
    let a ← rotation h y g z
    let b ← rotation h x f z
    let c ← rotation g x f y
    ofLambda ⟨F.parameters, .array [a, b, c]⟩ F.log
  | _, _ =>
    refuse F.log "Curl is only defined for three-dimensional VectorFields. Aborting Curl." ""
      (natText F.dim) "3"
    return empty F.log

/-- The divergence of the gradient. -/
def laplacian (f : Lambda) (log : LogId) : Reporting Lambda := do
  (← gradient f log).divergence

/-- The derivatives of every component with respect to every parameter, row by row. -/
def jacobian (F : Field) : Except Error (List (List Expr)) :=
  F.bodies.mapM (partials F.parameters)

/-- Simplifies every component. -/
def simplify (F : Field) : Reporting Field := do
  ofLambda (← F.toLambda.simplify) F.log

/-! ## Evaluation and text -/

/-- The values of the components at a point. -/
def evaluateWith {α : Type} (read : Table α → Except Error Expr.Bindings) (F : Field)
    (args : List α) : Except Error (NdArray Float) := do
  NdArray.stack (← F.functions.mapM fun f => f.evaluateWith read args)

def evaluate (F : Field) (args : List (NdArray Float)) : Except Error (NdArray Float) :=
  F.evaluateWith Lambda.checkNames args

/-- One line per component, simplified. -/
def text (F : Field) : Except Error String := do
  let shown ← F.functions.mapM Lambda.simplify
  return String.join (shown.mapIdx fun i f => "\nF_" ++ natText i ++ f.text)

end Field

end Nabla
