import Nabla.Expr.Basic

/-!
# Derivatives

The rules of differentiation, applied as they stand: nothing is simplified on the way. Every variable
but one counts as a constant. A function of which only the name is known is passed over: the
derivative of its first argument stands for it.
-/

namespace Nabla.Expr

/-! ## Short forms -/

def zero : Expr := const 0

def one : Expr := const 1

def two : Expr := const 2

def add (a b : Expr) : Expr := binary .add a b

def sub (a b : Expr) : Expr := binary .sub a b

def mul (a b : Expr) : Expr := binary .mul a b

def div (a b : Expr) : Expr := binary .div a b

def power (a b : Expr) : Expr := binary .pow a b

/-! ## The rules -/

/-- The derivative of a function with respect to its argument `u`. -/
def outer : Fn → Expr → Expr
  | .log, u => div one u
  | .exp, u => call .exp u
  | .abs, u => div u (call .abs u)
  | .sqrt, u => div one (mul two (call .sqrt u))
  | .sin, u => call .cos u
  | .cos, u => neg (call .sin u)
  | .tan, u => div one (power (call .cos u) two)
  | .asin, u => div one (call .sqrt (sub one (power u two)))
  | .acos, u => neg (div one (call .sqrt (sub one (power u two))))
  | .atan, u => div one (add one (power u two))

/-- The derivative of `f ^ g` for positive `f`, where `f'` and `g'` are the derivatives:
`f ^ g * (g' * log f + g * f' / f)`. -/
def powerRule (f g f' g' : Expr) : Expr :=
  mul (power f g) (add (mul g' (call .log f)) (div (mul g f') f))

/-- The derivative with respect to the variable `x`. Unfinished nodes are left as they are. -/
def deriv (x : String) : Expr → Expr
  | const _ | oddVar _ => zero
  | var y => if y = x then one else zero
  | neg f => neg (deriv x f)
  | binary .add f g => add (deriv x f) (deriv x g)
  | binary .sub f g => sub (deriv x f) (deriv x g)
  | binary .mul f g => add (mul f (deriv x g)) (mul g (deriv x f))
  | binary .div f g => div (sub (mul g (deriv x f)) (mul f (deriv x g))) (power g two)
  | binary .pow f g => powerRule f g (deriv x f) (deriv x g)
  | call h u => mul (outer h u) (deriv x u)
  | powCall f g => powerRule f g (deriv x f) (deriv x g)
  | unknown _ u _ => deriv x u
  | blank => blank
  | pair a b => pair a b
  | datum j => datum j

/-- The unfinished node that differentiation meets first. The rules for products and powers look at
the second operand first. -/
def derivObstacle : Expr → Option Expr
  | const _ | var _ | oddVar _ => none
  | neg f | call _ f | unknown _ f _ => derivObstacle f
  | binary .mul f g | binary .pow f g | powCall f g => derivObstacle g <|> derivObstacle f
  | binary _ f g => derivObstacle f <|> derivObstacle g
  | blank => some blank
  | pair a b => some (pair a b)
  | datum j => some (datum j)

/-- The derivative, refused where an unfinished node is in the way. -/
def differentiate (e : Expr) (x : String) : Except Error Expr :=
  match e.derivObstacle with
  | some node => .error (.unsupported .differentiate node.kind)
  | none => .ok (e.deriv x)

/-- Differentiates `n` times. -/
def differentiateTimes (x : String) : Nat → Expr → Except Error Expr
  | 0, e => .ok e
  | n + 1, e => do differentiateTimes x n (← differentiate e x)

end Nabla.Expr
