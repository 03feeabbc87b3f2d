import Nabla.Arithmetic
import Nabla.Expr.Basic

/-!
# Generated code

The code of an expression over an array `values`, in which every parameter has its place. Divisions,
powers and functions are written as calls of array routines, so that they give an infinity or the
undefined value where plain division would stop.
-/

namespace Nabla

inductive Code where
  /-- A finite literal. -/
  | number (x : Float)
  | nan
  | infinity
  /-- `values[i]` -/
  | slot (i : Nat)
  | negated (c : Code)
  | binary (op : BinOp) (left right : Code)
  | call (f : Fn) (arg : Code)
  /-- Two pieces of code with nothing between them. -/
  | adjacent (left right : Code)
deriving Inhabited

namespace Code

/-- The array routine of a function. -/
def routine : Fn → String
  | .log => "np.log"
  | .exp => "np.exp"
  | .abs => "np.abs"
  | .sqrt => "np.sqrt"
  | .sin => "np.sin"
  | .cos => "np.cos"
  | .tan => "np.tan"
  | .asin => "np.arcsin"
  | .acos => "np.arccos"
  | .atan => "np.arctan"

/-- The text of an operation on two operands. -/
def binaryText (op : BinOp) (left right : String) : String :=
  match op with
  | .add | .sub | .mul => "(" ++ left ++ " " ++ op.symbol ++ " " ++ right ++ ")"
  | .div => "np.divide(" ++ left ++ ", " ++ right ++ ")"
  | .pow => "np.power(" ++ left ++ ", " ++ right ++ ")"

def text : Code → String
  | number x => Decimal.text x
  | nan => "np.nan"
  | infinity => "np.inf"
  | slot i => "values[" ++ natText i ++ "]"
  | negated c => "(-" ++ c.text ++ ")"
  | binary op a b => binaryText op a.text b.text
  | call f a => routine f ++ "(" ++ a.text ++ ")"
  | adjacent a b => "(" ++ a.text ++ "  " ++ b.text ++ ")"

/-! ## Reading the text

Two pieces side by side read as a difference where the right one starts with a sign, and as the call
of the left one where the right one starts with a bracket. Otherwise they cannot be read. -/

/-- Whether the text starts with a sign. -/
def signed : Code → Bool
  | number x => 0x8000000000000000 ≤ x.toBits
  | _ => false

/-- Whether the text starts with a bracket. -/
def bracketed : Code → Bool
  | negated _ | adjacent _ _ => true
  | binary op _ _ => match op with
    | .add | .sub | .mul => true
    | .div | .pow => false
  | number _ | nan | infinity | slot _ | call _ _ => false

/-- Whether the text of the code can be read as code. -/
def readable : Code → Bool
  | number _ | nan | infinity | slot _ => true
  | negated c | call _ c => c.readable
  | binary _ a b => a.readable && b.readable
  | adjacent a b => a.readable && b.readable && (b.signed || b.bracketed)

/-- How deep the brackets in the text are nested. -/
def depth : Code → Nat
  | number _ | nan | infinity => 0
  | slot _ => 1
  | negated c | call _ c => c.depth + 1
  | binary _ a b | adjacent a b => max a.depth b.depth + 1

/-- Whether the value is computed from literals by plain operators alone. -/
def literal : Code → Bool
  | number _ | nan | infinity => true
  | slot _ | call _ _ => false
  | negated c => c.literal
  | binary op a b => match op with
    | .add | .sub | .mul => a.literal && b.literal
    | .div | .pow => false
  | adjacent a b => a.literal && b.literal

/-- The code of a constant. -/
def ofFloat (x : Float) : Code :=
  if x.isNaN then nan
  else if x.isInf then if 0 < x then infinity else negated infinity
  else number x

/-- What messages call the value of code. -/
def kindOf {β : Type u} (I : Interp β) (c : Code) (value : β) : String :=
  if c.literal then "float" else I.kind value

/-- The value of code at the given array. -/
def run {β : Type u} (I : Interp β) (values : List β) : Code → Except Error β
  | number x => .ok (I.const x)
  | nan => .ok (I.const (0.0 / 0.0))
  | infinity => .ok (I.const (1.0 / 0.0))
  | slot i => match values[i]? with
    | some v => .ok v
    | none => .error (.outOfBounds i values.length)
  | negated c => do return I.neg (← run I values c)
  | binary op a b => do
    let x ← run I values a
    let y ← run I values b
    I.combine op x y
  | call f a => do return I.call f (← run I values a)
  | adjacent a b => do
    let x ← run I values a
    match b with
    | number y => I.combine .sub x (I.const (-y))
    | _ =>
      let _ ← run I values b
      throw (.notCallable (a.kindOf I x))

end Code

/-- The place of a parameter: the last one where its name stands. -/
def lastIndex? (name : String) : List String → Option Nat
  | [] => none
  | p :: ps => match lastIndex? name ps with
    | some i => some (i + 1)
    | none => if p = name then some 0 else none

/-- The code of an expression over the given parameters. -/
def Expr.emit (parameters : List String) : Expr → Except Error Code
  | .const x => .ok (Code.ofFloat x)
  | .var name => match lastIndex? name parameters with
    | some i => .ok (.slot i)
    | none => .error (.notParameter name)
  | .neg e => do return .negated (← emit parameters e)
  | .binary op a b => do
    let x ← emit parameters a
    let y ← emit parameters b
    return .binary op x y
  | .call f a => do return .call f (← emit parameters a)
  | .powCall a b => do
    let x ← emit parameters a
    let y ← emit parameters b
    return .binary .pow x y
  | .unknown name _ _ => .error (.unknownFunction name)
  | .blank => .error (.unsupported .emit Expr.blank.kind)
  | .pair a b => do
    let x ← emit parameters a
    let y ← emit parameters b
    return .adjacent x y
  | .datum j => .error (.unsupported .emit j.kind)
  | .oddVar n => .error (n.lookupError (.notParameter n.text))

end Nabla
