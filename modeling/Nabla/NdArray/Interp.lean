import Nabla.Arithmetic
import Nabla.NdArray.Walk

/-!
# Evaluation in arrays

Numbers are arrays without dimensions; every operation acts entry by entry.
-/

namespace Nabla.NdArray

variable {α : Type u}

/-- The operation on the entries of arrays of the given shapes. -/
def entryOp (A : Arithmetic α) (op : BinOp) (left right : List Nat) : α → α → α :=
  match op with
  | .pow => if holdsRight left right then A.combine .pow else A.powEach
  | op => A.combine op

/-- What messages call the number or array that was computed. -/
def kind (x : NdArray α) : String :=
  match x.shape with
  | [] => numberKind
  | _ => "numpy.ndarray"

/-- Evaluation in arrays of numbers. -/
def interp (A : Arithmetic α) (embed : Float → α) : Interp (NdArray α) where
  const x := scalar (embed x)
  neg := map A.neg
  call f := map (A.call f)
  combine op x y := zipWith (entryOp A op x.shape y.shape) x y
  kind := kind

end Nabla.NdArray
