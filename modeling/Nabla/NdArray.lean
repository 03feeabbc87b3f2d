import Nabla.Error

/-!
# Arrays of any number of dimensions

An array is its shape and its entries by position. Two arrays are combined entry by entry after
broadcasting: their shapes are aligned at the last dimension, and a dimension that is missing or of
size one is repeated.
-/

namespace Nabla

structure NdArray (α : Type u) where
  shape : List Nat
  /-- The entry at a position; only positions inside the shape matter. -/
  entry : List Nat → α

namespace NdArray

variable {α : Type u} {β : Type v} {γ : Type w}

/-- The positions of a shape in row-major order. -/
def positions : List Nat → List (List Nat)
  | [] => [[]]
  | n :: rest => (List.range n).flatMap fun i => (positions rest).map (i :: ·)

/-- The entries in row-major order. -/
def toList (x : NdArray α) : List α := (positions x.shape).map x.entry

/-- The array without dimensions that holds one number. -/
def scalar (a : α) : NdArray α := ⟨[], fun _ => a⟩

def map (f : α → β) (x : NdArray α) : NdArray β := ⟨x.shape, fun i => f (x.entry i)⟩

/-- How many entries an array of a shape has. -/
def count : List Nat → Nat
  | [] => 1
  | n :: rest => n * count rest

/-- How far into row-major order a position lies. -/
def offset : List Nat → List Nat → Nat
  | _ :: sizes, i :: position => i * count sizes + offset sizes position
  | _, _ => 0

/-- The array with the given entries in row-major order. -/
def ofRowMajor [Inhabited α] (shape : List Nat) (data : Array α) : NdArray α :=
  ⟨shape, fun i => data.getD (offset shape i) default⟩

/-! ## Broadcasting -/

/-- The common size of two dimensions. -/
def joinSize? (m n : Nat) : Option Nat :=
  if m = n then some m else if m = 1 then some n else if n = 1 then some m else none

/-- The common shape of two shapes that are written from the last dimension on. -/
def joinReversed? : List Nat → List Nat → Option (List Nat)
  | [], ns => some ns
  | ms, [] => some ms
  | m :: ms, n :: ns => do return (← joinSize? m n) :: (← joinReversed? ms ns)

/-- The shape that two arrays are broadcast to. -/
def joinShape? (s t : List Nat) : Option (List Nat) :=
  (joinReversed? s.reverse t.reverse).map List.reverse

/-- The position in an array of the given shape that a position after broadcasting repeats. -/
def project (shape position : List Nat) : List Nat :=
  List.zipWith (fun n i => if n = 1 then 0 else i) shape
    (position.drop (position.length - shape.length))

/-- Combines two arrays entry by entry. -/
def zipWith (f : α → β → γ) (x : NdArray α) (y : NdArray β) : Except Error (NdArray γ) :=
  match joinShape? x.shape y.shape with
  | some shape =>
    .ok ⟨shape, fun i => f (x.entry (project x.shape i)) (y.entry (project y.shape i))⟩
  | none => .error (.shapes x.shape y.shape)

/-! ## Rows -/

/-- The sizes that two shapes share from the first dimension on. -/
def shared : List Nat → List Nat → List Nat
  | m :: ms, n :: ns => if m = n then m :: shared ms ns else []
  | _, _ => []

/-- The shape of a list of things with the given shapes: its length and what they all share. -/
def rowShape : List (List Nat) → List Nat
  | [] => [0]
  | s :: rest => (rest.length + 1) :: rest.foldl shared s

/-- Whether all shapes of a list are the same. -/
def even : List (List Nat) → Bool
  | [] => true
  | s :: rest => rest.all (· == s)

/-- The array whose rows are the given arrays. -/
def stack [Inhabited α] (rows : List (NdArray α)) : Except Error (NdArray α) :=
  let shapes := rows.map shape
  if even shapes then
    .ok ⟨rowShape shapes, fun
      | i :: rest => ((rows[i]?).map fun x => x.entry rest).getD default
      | [] => default⟩
  else .error (.ragged (rowShape shapes))

/-- Row `i` of an array with at least one dimension. -/
def row (x : NdArray α) (i : Nat) : NdArray α := ⟨x.shape.tail, fun position => x.entry (i :: position)⟩

/-- The number that an array without dimensions is. An array with dimensions is no number, also if it
holds a single one. -/
def number? (x : NdArray α) : Option α :=
  match x.shape with
  | [] => some (x.entry [])
  | _ => none

end NdArray

end Nabla
