import Mathlib.Tactic.Common
import Nabla.Expr.Eval
import Nabla.Proofs.Places
import Nabla.Proofs.Tree
import Nabla.Value.Basic

/-!
# Numbers among arrays

A number is an array without dimensions. Evaluation at numbers only meets numbers, so it is evaluation
in the numbers themselves; and a list of numbers is read as an array of one dimension with these
numbers as its entries.
-/

namespace Nabla

/-! ## Evaluation at numbers -/

theorem entryOp_numbers (A : Arithmetic Float) (op : BinOp) :
    NdArray.entryOp A op [] [] = A.combine op := by
  cases op <;> rfl

theorem combine_numbers (A : Arithmetic Float) (op : BinOp) (x y : Float) :
    (NdArray.interp A id).combine op (.scalar x) (.scalar y) = .ok (.scalar (A.combine op x y)) := by
  rw [← entryOp_numbers]
  rfl

theorem bind_combine_numbers (A : Arithmetic Float) (op : BinOp) (m m' : Except Error Float) :
    (do (NdArray.interp A id).combine op (← m.map NdArray.scalar) (← m'.map NdArray.scalar)) =
      (do (Interp.scalar A id).combine op (← m) (← m')).map .scalar := by
  cases m with
  | error err => rfl
  | ok x =>
    cases m' with
    | error err => rfl
    | ok y => exact combine_numbers A op x y

theorem evalWith_scalars (A : Arithmetic Float) (ρ : String → Option Float) (e : Expr) :
    e.evalWith (NdArray.interp A id) (fun name => (ρ name).map .scalar) =
      (e.evalWith (.scalar A id) ρ).map .scalar := by
  induction e with
  | const | unknown | blank | pair | datum | oddVar => rfl
  | var name =>
    unfold Expr.evalWith
    cases ρ name <;> rfl
  | neg a iha | call f a iha =>
    unfold Expr.evalWith
    rw [iha]
    cases a.evalWith (.scalar A id) ρ <;> rfl
  | binary op a b iha ihb | powCall a b iha ihb =>
    unfold Expr.evalWith
    rw [iha, ihb]
    exact bind_combine_numbers A _ _ _

namespace Table

variable {α : Type u} {β : Type v}

theorem set_map (f : α → β) (t : Table α) (name : String) (a : α) :
    Table.set (t.map (Prod.map id f)) name (f a) = (t.set name a).map (Prod.map id f) := by
  induction t with
  | nil => rfl
  | cons p rest ih =>
    obtain ⟨key, b⟩ := p
    by_cases h : key = name <;> simp [set, h, ih]

theorem find?_map (f : α → β) (t : Table α) (name : String) :
    Table.find? (t.map (Prod.map id f)) name = (t.find? name).map f := by
  induction t with
  | nil => rfl
  | cons p rest ih =>
    obtain ⟨key, b⟩ := p
    by_cases h : key = name <;> simp [find?, h, ih]

theorem ofPairs_map (f : α → β) (pairs : List (String × α)) :
    ofPairs (pairs.map (Prod.map id f)) = (ofPairs pairs).map (Prod.map id f) := by
  unfold ofPairs
  generalize ht : ([] : Table α) = t
  have hnil : ([] : Table β) = t.map (Prod.map id f) := by rw [← ht]; rfl
  rw [hnil]
  clear ht hnil
  induction pairs generalizing t with
  | nil => rfl
  | cons p pairs ih =>
    rw [List.map_cons, List.foldl_cons, List.foldl_cons, ← ih, ← set_map]
    rfl

end Table

theorem eval_numbers (e : Expr) (numbers : Table Float) :
    e.eval (numbers.map (Prod.map id .scalar)) =
      (e.evalWith (.scalar .double id) numbers.find?).map .scalar := by
  rw [← evalWith_scalars]
  unfold Expr.eval
  congr
  funext name
  exact Table.find?_map NdArray.scalar numbers name

/-- The values of parameters, given in their order. -/
def bindings (ps : List String) (values : List Float) : Expr.Bindings :=
  Table.ofPairs (ps.zip (values.map .scalar))

theorem eval_bindings (e : Expr) (ps : List String) (values : List Float) :
    e.eval (bindings ps values) =
      (e.evalWith (.scalar .double id) (Table.ofPairs (ps.zip values)).find?).map .scalar := by
  rw [← eval_numbers, ← Table.ofPairs_map, bindings, List.zip_map_right]

/-! ## Rows -/

namespace NdArray

theorem shared_self (s : List Nat) : shared s s = s := by
  induction s with
  | nil => rfl
  | cons n s ih => rw [shared, if_pos rfl, ih]

theorem foldl_shared_self {s : List Nat} {shapes : List (List Nat)} (h : ∀ t ∈ shapes, t = s) :
    shapes.foldl shared s = s := by
  induction shapes with
  | nil => rfl
  | cons t shapes ih =>
    obtain ⟨rfl, hshapes⟩ := List.forall_mem_cons.mp h
    rw [List.foldl_cons, shared_self, ih hshapes]

theorem foldl_shared_nil (shapes : List (List Nat)) : shapes.foldl shared [] = [] := by
  induction shapes with
  | nil => rfl
  | cons t shapes ih => exact ih

theorem rowShape_of_forall_eq {s : List Nat} {shapes : List (List Nat)} (hne : shapes ≠ [])
    (h : ∀ t ∈ shapes, t = s) : rowShape shapes = shapes.length :: s := by
  cases shapes with
  | nil => exact absurd rfl hne
  | cons t shapes =>
    obtain ⟨rfl, hshapes⟩ := List.forall_mem_cons.mp h
    rw [rowShape, foldl_shared_self hshapes, List.length_cons]

theorem rowShape_of_nil_mem {shapes : List (List Nat)} (h : [] ∈ shapes) :
    rowShape shapes = [shapes.length] := by
  have hfold : ∀ (shapes : List (List Nat)) (s : List Nat), [] ∈ shapes →
      shapes.foldl shared s = [] := by
    intro shapes
    induction shapes with
    | nil => exact fun _ h => nomatch h
    | cons t shapes ih =>
      intro s hmem
      rcases List.mem_cons.mp hmem with rfl | hmem
      · have hnil : shared s [] = [] := by cases s <;> rfl
        rw [List.foldl_cons, hnil, foldl_shared_nil]
      · exact ih _ hmem
  cases shapes with
  | nil => exact nomatch h
  | cons s shapes =>
    rcases List.mem_cons.mp h with rfl | h
    · rw [rowShape, foldl_shared_nil, List.length_cons]
    · rw [rowShape, hfold shapes s h, List.length_cons]

theorem even_eq_true_iff {shapes : List (List Nat)} :
    even shapes = true ↔ ∀ s ∈ shapes, ∀ t ∈ shapes, s = t := by
  cases shapes with
  | nil => simp [even]
  | cons s shapes =>
    rw [even, List.all_eq_true]
    simp only [beq_iff_eq]
    constructor
    · intro h
      have hall : ∀ t ∈ s :: shapes, t = s := List.forall_mem_cons.mpr ⟨rfl, h⟩
      exact fun t ht u hu => (hall t ht).trans (hall u hu).symm
    · intro h t ht
      exact h t (List.mem_cons_of_mem s ht) s List.mem_cons_self

end NdArray

/-! ## Lists of numbers -/

/-- Numbers as values of a session. -/
def numberValues (values : List Float) : List Value := values.map fun x => .plain (.float x)

theorem outlines_numberValues (values : List Float) :
    Value.outlines (numberValues values) = List.replicate values.length ⟨[], true⟩ := by
  induction values with
  | nil => rfl
  | cons x values ih =>
    show Value.outline (.plain (.float x)) :: Value.outlines (numberValues values) = _
    rw [ih]
    rfl

theorem numbersOf_numberValues (values : List Float) :
    Value.numbersOf (numberValues values) = .ok values := by
  induction values with
  | nil => rfl
  | cons x values ih =>
    show (do return (← Value.numbers (.plain (.float x))) ++
      (← Value.numbersOf (numberValues values)) : Except Error (List Float)) = _
    rw [ih]
    rfl

theorem rowShape_replicate_nil (n : Nat) : NdArray.rowShape (List.replicate n []) = [n] := by
  cases n with
  | zero => rfl
  | succ n =>
    rw [NdArray.rowShape_of_nil_mem (List.mem_replicate.mpr ⟨n.succ_ne_zero, rfl⟩),
      List.length_replicate]

theorem even_replicate_nil (n : Nat) : NdArray.even (List.replicate n []) = true := by
  rw [NdArray.even_eq_true_iff]
  intro s hs t ht
  rw [List.eq_of_mem_replicate hs, List.eq_of_mem_replicate ht]

theorem outline_numberValues (values : List Float) :
    (Value.list (numberValues values)).outline = ⟨[values.length], true⟩ := by
  show Value.Outline.ofParts (Value.outlines (numberValues values)) = _
  rw [outlines_numberValues, Value.Outline.ofParts, List.map_replicate, rowShape_replicate_nil,
    even_replicate_nil, Bool.and_true, List.all_replicate]
  simp

theorem toArray_numberValues (values : List Float) :
    (Value.list (numberValues values)).toArray =
      .ok (.ofRowMajor [values.length] values.toArray) := by
  unfold Value.toArray
  rw [outline_numberValues]
  show (do return NdArray.ofRowMajor _ (← Value.numbersOf (numberValues values)).toArray) = _
  rw [numbersOf_numberValues]
  rfl

theorem positions_singleton (n : Nat) : NdArray.positions [n] = (List.range n).map fun i => [i] := by
  show (List.range n).flatMap (fun i => [[i]]) = _
  rw [← List.map_eq_flatMap]

theorem toList_ofRowMajor (values : List Float) :
    (NdArray.ofRowMajor [values.length] values.toArray).toList = values := by
  show (NdArray.positions [values.length]).map _ = values
  rw [positions_singleton, List.map_map]
  apply List.ext_getElem
  · simp
  · intro i h _
    have hi : i < values.length := by simpa using h
    simp [NdArray.ofRowMajor, NdArray.offset, NdArray.count, hi]

end Nabla
