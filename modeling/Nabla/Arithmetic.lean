import Nabla.Error
import Nabla.Function

/-!
# Numeric primitives

The operations that expressions are computed with. The tasks on expressions take them as a parameter,
so that what holds for all of them can be said once; the program itself runs on doubles.
-/

namespace Nabla

/-- Negation, the five operators and the ten functions on a type of numbers. -/
structure Arithmetic (α : Type u) where
  neg : α → α
  combine : BinOp → α → α → α
  call : Fn → α → α
  /-- The power where base and exponent both change from entry to entry. -/
  powEach : α → α → α := combine .pow

/-- A power whose exponent is known before the base. The common exponents are those of a reciprocal,
a square root and a square, and are computed as such: the square root of minus zero is minus zero and
that of minus infinity is undefined, where `Float.pow` gives zero and infinity. -/
def powKnown (x y : Float) : Float :=
  if y == -1 then 1 / x
  else if y == 0 then 1
  else if y == 0.5 then x.sqrt
  else if y == 1 then x
  else if y == 2 then x * x
  else Float.pow x y

/-- The arithmetic of doubles: nothing fails, a division by zero gives an infinity or the undefined
value. -/
def Arithmetic.double : Arithmetic Float where
  neg x := -x
  combine
    | .add => fun x y => x + y
    | .sub => fun x y => x - y
    | .mul => fun x y => x * y
    | .div => fun x y => x / y
    | .pow => powKnown
  powEach := Float.pow
  call
    | .log => Float.log
    | .exp => Float.exp
    | .abs => Float.abs
    | .sqrt => Float.sqrt
    | .sin => Float.sin
    | .cos => Float.cos
    | .tan => Float.tan
    | .asin => Float.asin
    | .acos => Float.acos
    | .atan => Float.atan

/-- The arithmetic of machine code, in which no exponent is known before its base. -/
def Arithmetic.machine : Arithmetic Float :=
  { Arithmetic.double with
    combine := fun
      | .pow => Float.pow
      | op => Arithmetic.double.combine op }

/-- What messages call a number that was computed. -/
def numberKind : String := "numpy.float64"

/-- What expressions are evaluated in. Unlike arithmetic, two values may fail to fit together. -/
structure Interp (β : Type u) where
  const : Float → β
  neg : β → β
  call : Fn → β → β
  combine : BinOp → β → β → Except Error β
  /-- What messages call a value that was computed. -/
  kind : β → String := fun _ => numberKind

/-- Evaluation in a type of numbers, in which nothing fails. -/
def Interp.scalar {α : Type u} (A : Arithmetic α) (embed : Float → α) : Interp α where
  const := embed
  neg := A.neg
  call := A.call
  combine op x y := .ok (A.combine op x y)

end Nabla
