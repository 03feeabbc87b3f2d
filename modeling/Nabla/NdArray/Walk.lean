import Nabla.NdArray

/-!
# The walk through two arrays

Two arrays that are combined are walked through together with the result, one axis inside the other.
Neighbouring axes along which all three go on evenly are walked as one axis. The innermost axes form
the core of the walk, which is made larger as long as that saves more turns than it adds uneven steps.
The right array is held if it stays at one entry throughout the core.
-/

namespace Nabla.NdArray

/-- One axis of a walk: its size, and how many entries a step along it goes on in the left array, in
the right array and in the result. -/
structure Axis where
  size : Nat
  left : Nat
  right : Nat
  result : Nat

namespace Axis

/-- Whether a step along the outer axis goes where one more step along the inner axis would go. An axis
of size one without a step fits to every other. -/
def evenly (inner outer : Axis) (step : Axis → Nat) : Bool :=
  (inner.size == 1 && step inner == 0) || (outer.size == 1 && step outer == 0) ||
    step inner * inner.size == step outer

/-- The step along two axes that are walked as one. -/
def joinedStep (inner outer : Axis) (step : Axis → Nat) : Nat :=
  if step inner = 0 then step outer else step inner

/-- Two neighbouring axes as one. -/
def join? (inner outer : Axis) : Option Axis :=
  if inner.evenly outer left && inner.evenly outer right && inner.evenly outer result then
    some ⟨inner.size * outer.size, inner.joinedStep outer left, inner.joinedStep outer right,
      inner.joinedStep outer result⟩
  else none

/-- How many axes from the innermost on are walked in steps of one size. -/
def reach (step : Axis → Nat) (inner : Axis) : List Axis → Nat
  | [] => 1
  | outer :: rest => if step inner * inner.size = step outer then reach step outer rest + 1 else 1

end Axis

/-- The axes of a walk from the innermost on. All shapes are written from the last dimension on; the
first three numbers count the entries of the arrays inside the axis. A dimension that is repeated is
walked without a step. -/
def axes (l r n : Nat) : (shape left right : List Nat) → List Axis
  | [], _, _ => []
  | size :: shape, left, right =>
    let m := left.headD 1
    let k := right.headD 1
    ⟨size, if m = 1 then 0 else l, if k = 1 then 0 else r, if size = 1 then 0 else n⟩ ::
      axes (l * m) (r * k) (n * size) shape left.tail right.tail

/-- Joins neighbouring axes where that is possible. -/
def coalesce (inner : Axis) : List Axis → List Axis
  | [] => [inner]
  | outer :: rest => match inner.join? outer with
    | some axis => coalesce axis rest
    | none => inner :: coalesce outer rest

/-- How many axes lie around the innermost one in the core of a walk. A core costs one, and one more
for each array that it does not walk in steps of one size. -/
def core (inner : Axis) (outer : List Axis) : Nat :=
  let reaches := [Axis.left, Axis.right, Axis.result].map fun step => Axis.reach step inner outer
  let cost d := 1 + reaches.countP (· ≤ d)
  let size d := ((inner :: outer).take (d + 1)).foldl (fun n axis => n * axis.size) 1
  (List.range (outer.length + 1)).foldl
    (fun best d => if cost d * size best ≤ cost best * size d then d else best) 0

/-- Whether the right array is held when arrays of the given shapes are combined. A single number is
always held. Arrays of one shape, and a number with an array, are walked entry by entry. -/
def holdsRight (left right : List Nat) : Bool :=
  if right.isEmpty then true
  else if left.isEmpty || left == right then false
  else
    let shape := (joinReversed? left.reverse right.reverse).getD []
    match axes 1 1 1 shape left.reverse right.reverse with
    | [] => true
    | inner :: outer => match coalesce inner outer with
      | [] => true
      | inner :: outer => inner.right == 0 && core inner outer < Axis.reach Axis.right inner outer

end Nabla.NdArray
