import Nabla.Jacobian
import Nabla.Value.Calculus

/-!
# Compiled functions

A program together with what the settings say about it: whether it carries its text as documentation,
and whether it can be run at all. Settings that cannot be met make every call fail, not the
compilation.
-/

namespace Nabla

namespace Settings

/-- The known ways to treat a division by zero in machine code. -/
def errorModels : List String := ["python", "numpy"]

/-- Why code that is compiled under the settings cannot be run. -/
def callFault? (s : Settings) : Option Error :=
  if s.accelerate.truthy && !errorModels.contains s.errorModel.text then
    some (.unknownErrorModel s.errorModel.text)
  else none

/-- The arithmetic of code that is compiled under the settings. -/
def arithmetic (s : Settings) : Arithmetic Float :=
  if s.accelerate.truthy then .machine else .double

/-- Fails if code that is compiled under the settings cannot be run. -/
def checkCall (s : Settings) : Except Error Unit :=
  match s.callFault? with
  | some fault => .error fault
  | none => .ok ()

end Settings

/-- A program made under settings. -/
structure Compiled where
  program : Program
  settings : Settings
  /-- Whether a call gives the one value of the program instead of an array. -/
  single : Bool

namespace Program

/-- Runs a program on an array. The values of the parameters are its entries, or its rows if it has
more than one dimension. -/
def call (A : Arithmetic Float) (p : Program) (x : NdArray Float) : Except Error (List Float) :=
  match x.shape with
  | n :: _ :: _ => p.runRows A ((List.range n).map x.row)
  | _ => p.runIn A x.toList

end Program

namespace Compiled

/-- The text of the program, if the settings ask for it. -/
def documentation (c : Compiled) : Option String :=
  if c.settings.document.truthy then some c.program.text else none

/-- Calls a compiled function. -/
def call (c : Compiled) (args : List Value) : Except Error Value := do
  let x ← (Value.list args).toArray
  c.settings.checkCall
  let out ← c.program.call c.settings.arithmetic x
  match c.single, out with
  | true, y :: _ => return .plain (.float y)
  | _, _ => return .array (.ofRowMajor [out.length] out.toArray)

/-- Compiles the body of a function. -/
def ofLambda (f : Lambda) (settings : Settings) : Except Error Compiled := do
  if f.isEmpty then throw .emptyLambda
  return ⟨← Program.compile f.components f.parameters, settings, !f.isArray⟩

/-- Compiles the components of a field. -/
def ofField (F : Field) (settings : Settings) : Except Error Compiled := do
  return ⟨← Program.compile F.bodies F.parameters, settings, false⟩

def ofValue (x : Value) (settings : Settings) : Except Error Compiled :=
  match x with
  | .lambda f => ofLambda f settings
  | .field _ F => ofField F settings
  | other => .error (other.lacks "compile")

end Compiled

namespace Value

/-- A name that is no variable of what ought to be expressions. -/
def unusedName (eqs : List Value) : String :=
  Expr.unusedName (eqs.filterMap fun
    | expr e => some e
    | _ => none)

/-- The names under which the variables of equations find the parameters. Only a text is found. -/
def places (eqs parameters : List Value) : List String :=
  parameters.map fun
    | plain (.str s) => s
    | _ => unusedName eqs

/-- The simplified derivative of what ought to be an expression. -/
def slope (eq : Value) (parameter : String) : Except Error Expr := do
  (← eq.node .differentiate).slope parameter

/-- The nonzero partial derivatives of what ought to be expressions. -/
def partials (eqs parameters : List Value) : Except Error (List Partial) :=
  Jacobian.nonzeroWith slope eqs (parameters.map fun p => p.target?.getD (unusedName eqs))

end Value

namespace Compiled

/-- Compiles what ought to be expressions. -/
def ofEquations (eqs parameters : List Value) (settings : Settings) : Except Error Compiled := do
  Value.checkKeys parameters
  let names := Value.places eqs parameters
  let program ← Program.compileWith (fun v => do (← v.node .emit).emit names) eqs
  return ⟨program, settings, false⟩

end Compiled

/-- A sparse Jacobian made under settings. -/
structure CompiledJacobian where
  jacobian : Jacobian
  settings : Settings

namespace CompiledJacobian

/-- The Jacobian of what ought to be expressions. -/
def ofEquations (eqs parameters : List Value) (settings : Settings) :
    Except Error CompiledJacobian := do
  let entries ← Value.partials eqs parameters
  unless entries.isEmpty do Value.checkKeys parameters
  return ⟨← Jacobian.assemble eqs.length (Value.places eqs parameters) entries, settings⟩

def ofField (F : Field) (settings : Settings) : Except Error CompiledJacobian := do
  return ⟨← Jacobian.compile F.bodies F.parameters, settings⟩

/-- The Jacobian at a point. Without entries there is nothing to run. -/
def call (c : CompiledJacobian) (args : List Value) : Except Error SparseMatrix := do
  let x ← (Value.list args).toArray
  match c.jacobian.program with
  | none => return c.jacobian.fill []
  | some p =>
    c.settings.checkCall
    return c.jacobian.fill (← p.call c.settings.arithmetic x)

end CompiledJacobian

end Nabla
