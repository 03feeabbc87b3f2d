import Nabla.Expr.Basic
import Nabla.NdArray.Interp

/-!
# Evaluation

From left to right, operands before the operation. A function of which only the name is known is
refused before its arguments are looked at.
-/

namespace Nabla.Expr

/-- The value of an expression where `ρ` gives the values of the variables. -/
def evalWith {β : Type u} (I : Interp β) (ρ : String → Option β) : Expr → Except Error β
  | const x => .ok (I.const x)
  | var name => match ρ name with
    | some v => .ok v
    | none => .error (.unbound name)
  | neg e => do return I.neg (← evalWith I ρ e)
  | binary op a b => do
    let x ← evalWith I ρ a
    let y ← evalWith I ρ b
    I.combine op x y
  | call f a => do return I.call f (← evalWith I ρ a)
  | powCall a b => do
    let x ← evalWith I ρ a
    let y ← evalWith I ρ b
    I.combine .pow x y
  | unknown name _ _ => .error (.unknownFunction name)
  | blank => .error (.unsupported .evaluate blank.kind)
  | pair _ _ => .error .noOperator
  | datum j => .error (.unsupported .evaluate j.kind)
  | oddVar n => .error (n.lookupError (.unbound n.text))

/-- Values of variables, by name. -/
abbrev Bindings := Table (NdArray Float)

/-- The value of an expression at doubles and arrays of doubles. -/
def eval (e : Expr) (bindings : Bindings) : Except Error (NdArray Float) :=
  evalWith (NdArray.interp .double id) bindings.find? e

end Nabla.Expr
