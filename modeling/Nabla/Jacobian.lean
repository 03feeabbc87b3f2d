import Nabla.Expr.Derivative
import Nabla.Expr.Simplify
import Nabla.Program.Basic

/-!
# Sparse Jacobians

The partial derivatives of a list of equations. A derivative that simplifies to zero is left out; the
others are kept column by column, each column from top to bottom.
-/

namespace Nabla

/-- One entry of a Jacobian. -/
structure Partial where
  row : Nat
  col : Nat
  expr : Expr
deriving Inhabited

/-- The simplified derivative of an equation with respect to a parameter. -/
def Expr.slope (eq : Expr) (parameter : String) : Except Error Expr := do
  (← eq.differentiate parameter).simplify

namespace Jacobian

/-- The entry at a place, unless it is zero. -/
def keep? (row col : Nat) (d : Expr) : Option Partial :=
  if d.isZero then none else some ⟨row, col, d⟩

/-- The entries of one row. -/
def rowEntries {α : Type u} (derive : α → String → Except Error Expr) (parameters : List String)
    (row : Nat) (eq : α) : Except Error (List Partial) := do
  let ds ← parameters.mapM (derive eq)
  return (ds.mapIdx (keep? row)).filterMap id

/-- The entries that are not zero, row by row. -/
def nonzeroWith {α : Type u} (derive : α → String → Except Error Expr) (eqs : List α)
    (parameters : List String) : Except Error (List Partial) := do
  let rows ← (eqs.zipIdx).mapM fun (eq, row) => rowEntries derive parameters row eq
  return rows.flatten

def nonzero (eqs : List Expr) (parameters : List String) : Except Error (List Partial) :=
  nonzeroWith Expr.slope eqs parameters

/-- Whether an entry comes before another column by column, each column from top to bottom. -/
def before (a b : Partial) : Bool := a.col < b.col || (a.col == b.col && a.row ≤ b.row)

/-- The entries column by column. -/
def columnMajor (entries : List Partial) : List Partial := entries.mergeSort before

/-- Counts the entries of each column, one place behind the column. -/
def tally (cols : Nat) (entries : List Partial) : List Nat :=
  entries.foldl (fun counts e => counts.modify (e.col + 1) (· + 1)) (List.replicate (cols + 1) 0)

/-- The sum of the numbers up to each place, added to what came before. -/
def runningSums (sum : Nat) : List Nat → List Nat
  | [] => []
  | n :: ns => (sum + n) :: runningSums (sum + n) ns

/-- Where each column starts among the entries in column order, and where the last one ends. -/
def starts (cols : Nat) (entries : List Partial) : List Nat := runningSums 0 (tally cols entries)

end Jacobian

/-- The layout of a sparse Jacobian and the program that computes its entries. -/
structure Jacobian where
  rows : Nat
  cols : Nat
  /-- The entries in column order. -/
  entries : List Partial
  /-- Absent if there is no entry. -/
  program : Option Program

/-- A matrix of which only some entries are stored, column by column. -/
structure SparseMatrix where
  rows : Nat
  cols : Nat
  /-- Column `c` is stored from place `starts[c]` up to `starts[c + 1]`. -/
  starts : List Nat
  /-- The row of each stored entry. -/
  indices : List Nat
  data : List Float

namespace SparseMatrix

/-- The stored entries of a column, each with its row. -/
def column (m : SparseMatrix) (c : Nat) : List (Nat × Float) :=
  let first := m.starts.getD c 0
  let last := m.starts.getD (c + 1) 0
  ((m.indices.zip m.data).drop first).take (last - first)

/-- The entry at a place: zero, and what is stored there added to it. -/
def entry (m : SparseMatrix) (r c : Nat) : Float :=
  (m.column c).foldl (fun sum (row, x) => if row = r then sum + x else sum) 0

/-- The matrix in full, row by row. -/
def dense (m : SparseMatrix) : List (List Float) :=
  (List.range m.rows).map fun r => (List.range m.cols).map (m.entry r)

end SparseMatrix

namespace Jacobian

/-- Lays out a Jacobian of the given size and makes the program for its entries. -/
def assemble (rows : Nat) (parameters : List String) (entries : List Partial) :
    Except Error Jacobian := do
  let sorted := columnMajor entries
  let program ← if sorted.isEmpty then pure none
    else some <$> Program.compile (sorted.map Partial.expr) parameters
  return ⟨rows, parameters.length, sorted, program⟩

def compile (eqs : List Expr) (parameters : List String) : Except Error Jacobian := do
  assemble eqs.length parameters (← nonzero eqs parameters)

/-- The matrix with the given values of the entries. -/
def fill (j : Jacobian) (data : List Float) : SparseMatrix :=
  ⟨j.rows, j.cols, starts j.cols j.entries, j.entries.map Partial.row, data⟩

/-- The Jacobian at a point. -/
def run (j : Jacobian) (values : List Float) : Except Error SparseMatrix := do
  match j.program with
  | none => return j.fill []
  | some p => return j.fill (← p.run values)

end Jacobian

end Nabla
