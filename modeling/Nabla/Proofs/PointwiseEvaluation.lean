import Nabla.Proofs.Broadcasting
import Nabla.Proofs.Numbers
import Nabla.Proofs.Vocabulary

/-!
# Evaluation at arrays

Every operator broadcasts its two operands on its own, wherever it stands in the tree. Still the whole
tree acts entry by entry: the value has the shape that the variables of the tree have together, and its
entries are the values of the tree at the entries of the variables. If the variables have no shape
together, some operator fails.
-/

namespace Nabla.Expr

open NdArray

theorem evalWith_congr {β : Type u} {I : Interp β} {ρ ρ' : String → Option β} {e : Expr}
    (h : ∀ x ∈ e.variableNames, ρ x = ρ' x) : e.evalWith I ρ = e.evalWith I ρ' := by
  induction e with
  | const | unknown | blank | pair | datum | oddVar => rfl
  | var x => rw [evalWith, evalWith, h x (mem_variableNames_var.mpr rfl)]
  | neg a iha | call f a iha =>
    have ha := iha fun x hx => h x (mem_variableNames_iff_children.mpr (by simp [children, hx]))
    rw [evalWith, evalWith, ha]
  | binary op a b iha ihb | powCall a b iha ihb =>
    have ha := iha fun x hx => h x (mem_variableNames_iff_children.mpr (by simp [children, hx]))
    have hb := ihb fun x hx => h x (mem_variableNames_iff_children.mpr (by simp [children, hx]))
    rw [evalWith, evalWith, ha, hb]

/-- Whether evaluating the tree takes a power. -/
def takesPower : Expr → Bool
  | neg a | call _ a => takesPower a
  | binary op a b => op == .pow || takesPower a || takesPower b
  | powCall _ _ => true
  | const _ | var _ | unknown _ _ _ | blank | pair _ _ | datum _ | oddVar _ => false

section Arrays

variable {α : Type}

/-- The shapes of the variables of a tree. -/
def shapes (ρ : String → Option (NdArray α)) (e : Expr) : Set (List Nat) :=
  { s | ∃ x ∈ e.variableNames, ∃ a, ρ x = some a ∧ a.shape = s }

/-- What the variables are at a position after broadcasting. -/
def entriesAt (ρ : String → Option (NdArray α)) (i : List Nat) (x : String) : Option α :=
  (ρ x).map fun a => a.entry (project a.shape i)

/-- The array has the shape of all variables together, and holds the values of the tree at their
entries. -/
structure Pointwise (A : Arithmetic α) (embed : Float → α) (ρ : String → Option (NdArray α)) (e : Expr)
    (r : NdArray α) : Prop where
  shape : IsJoint (e.shapes ρ) r.shape
  entry : ∀ i ∈ positions r.shape, e.evalWith (.scalar A embed) (entriesAt ρ i) = .ok (r.entry i)

variable {A : Arithmetic α} {embed : Float → α} {ρ : String → Option (NdArray α)}

theorem shapes_subset_of_child {c e : Expr} (hc : c ∈ e.children) : c.shapes ρ ⊆ e.shapes ρ := by
  rintro s ⟨x, hx, ha⟩
  exact ⟨x, mem_variableNames_iff_children.mpr (.inr ⟨c, hc, hx⟩), ha⟩

theorem shapes_unary {a e : Expr} (h : e.children = [a]) : e.shapes ρ = a.shapes ρ := by
  ext s
  refine ⟨?_, fun hs => shapes_subset_of_child (by simp [h]) hs⟩
  rintro ⟨x, hx, ha⟩
  rcases mem_variableNames_iff_children.mp hx with rfl | ⟨c, hc, hx⟩
  · cases h
  · obtain rfl : c = a := by simpa [h] using hc
    exact ⟨x, hx, ha⟩

theorem shapes_of_operands {a b e : Expr} (h : e.children = [a, b]) :
    e.shapes ρ = a.shapes ρ ∪ b.shapes ρ := by
  ext s
  constructor
  · rintro ⟨x, hx, ha⟩
    rcases mem_variableNames_iff_children.mp hx with rfl | ⟨c, hc, hx⟩
    · cases h
    · rw [h, List.mem_pair] at hc
      rcases hc with rfl | rfl
      · exact .inl ⟨x, hx, ha⟩
      · exact .inr ⟨x, hx, ha⟩
  · rintro (hs | hs) <;> exact shapes_subset_of_child (by simp [h]) hs

theorem Pointwise.entry_project {e : Expr} {r : NdArray α} (h : Pointwise A embed ρ e r)
    {u i : List Nat} (hu : Spreads r.shape u) (hi : i ∈ positions u) :
    e.evalWith (.scalar A embed) (entriesAt ρ i) = .ok (r.entry (project r.shape i)) := by
  rw [← h.entry _ (project_mem hu hi)]
  refine evalWith_congr fun x hx => ?_
  unfold entriesAt
  cases hx' : ρ x with
  | none => rfl
  | some a =>
    have hspread : Spreads a.shape r.shape := h.shape.spreads ⟨x, hx, a, hx', rfl⟩
    have hlen : r.shape.length ≤ i.length := hu.rank.trans (mem_positions_iff.mp hi).1.ge
    rw [Option.map_some, Option.map_some, project_project hspread hlen]

/-- Either there is a value, pointwise, or the shapes do not fit together and an operator says so. -/
def PointwiseOrClash (A : Arithmetic α) (embed : Float → α) (ρ : String → Option (NdArray α))
    (e : Expr) : Prop :=
  (∃ r, e.evalWith (interp A embed) ρ = .ok r ∧ Pointwise A embed ρ e r) ∨
    ¬ Compatible (e.shapes ρ) ∧ ∃ s t, e.evalWith (interp A embed) ρ = .error (.shapes s t)

theorem pointwise_unary {a e : Expr} {f : α → α} (hchildren : e.children = [a])
    (harray : e.evalWith (interp A embed) ρ = (a.evalWith (interp A embed) ρ).map (NdArray.map f))
    (hscalar : ∀ i, e.evalWith (.scalar A embed) (entriesAt ρ i) =
      (a.evalWith (.scalar A embed) (entriesAt ρ i)).map f)
    (ha : PointwiseOrClash A embed ρ a) : PointwiseOrClash A embed ρ e := by
  unfold PointwiseOrClash
  rw [harray, shapes_unary hchildren]
  obtain ⟨r, hr, hshape, hentry⟩ | ⟨hclash, s, t, hr⟩ := ha
  · refine .inl ⟨r.map f, by rw [hr]; rfl, ?_, fun i hi => ?_⟩
    · rw [shapes_unary hchildren]
      exact hshape
    · rw [hscalar, hentry i hi]
      rfl
  · exact .inr ⟨hclash, s, t, by rw [hr]; rfl⟩

theorem entryOp_eq {op : BinOp} (h : op = .pow → A.powEach = A.combine .pow) (s t : List Nat) :
    entryOp A op s t = A.combine op := by
  cases op with
  | add | sub | mul | div => rfl
  | pow =>
    rw [entryOp, h rfl]
    exact ite_self _

theorem pointwise_operands {a b e : Expr} {op : BinOp} (hchildren : e.children = [a, b])
    (heval : ∀ {β : Type} (I : Interp β) (ρ : String → Option β),
      e.evalWith I ρ = do I.combine op (← a.evalWith I ρ) (← b.evalWith I ρ))
    (hop : op = .pow → A.powEach = A.combine .pow) (ha : PointwiseOrClash A embed ρ a)
    (hb : PointwiseOrClash A embed ρ b) : PointwiseOrClash A embed ρ e := by
  unfold PointwiseOrClash
  rw [heval]
  -- the left operand is computed first, and a clash inside an operand is a clash of the whole
  obtain ⟨x, hx, hax⟩ | ⟨hclash, s, t, hx⟩ := ha
  · obtain ⟨y, hy, hby⟩ | ⟨hclash, s, t, hy⟩ := hb
    · rw [hx, hy]
      show (∃ r, zipWith (entryOp A op x.shape y.shape) x y = _ ∧ _) ∨
        _ ∧ ∃ s t, zipWith (entryOp A op x.shape y.shape) x y = _
      rw [entryOp_eq hop]
      unfold NdArray.zipWith
      cases hu : joinShape? x.shape y.shape with
      | none =>
        rw [shapes_of_operands hchildren]
        exact .inr ⟨hax.shape.not_compatible_union hby.shape hu, _, _, rfl⟩
      | some u =>
        obtain ⟨hxu, hyu⟩ := joinShape?_spreads hu
        refine .inl ⟨_, rfl, ?_, fun i hi => ?_⟩
        · rw [shapes_of_operands hchildren]
          exact hax.shape.union hby.shape hu
        · rw [heval, hax.entry_project hxu hi, hby.entry_project hyu hi]
          rfl
    · refine .inr ⟨fun h => hclash (h.mono (shapes_subset_of_child (by simp [hchildren]))), s, t, ?_⟩
      rw [hx, hy]
      rfl
  · refine .inr ⟨fun h => hclash (h.mono (shapes_subset_of_child (by simp [hchildren]))), s, t, ?_⟩
    rw [hx]
    rfl

theorem pointwise_or_clash {e : Expr} (he : e.Over .known)
    (hpow : e.takesPower = true → A.powEach = A.combine .pow)
    (hρ : ∀ x ∈ e.variableNames, ∃ a, ρ x = some a) : PointwiseOrClash A embed ρ e := by
  induction e with
  | const c =>
    have hshapes : (const c).shapes ρ = ∅ := by
      simp [shapes, variableNames, collect]
    exact .inl ⟨_, rfl, hshapes ▸ isJoint_empty, fun i _ => rfl⟩
  | var x =>
    obtain ⟨a, ha⟩ := hρ x (mem_variableNames_var.mpr rfl)
    have hshapes : (var x).shapes ρ = {a.shape} := by
      ext s
      simp [shapes, mem_variableNames_var, ha, eq_comm]
    refine .inl ⟨a, by rw [evalWith, ha], hshapes ▸ isJoint_singleton _, fun i hi => ?_⟩
    rw [evalWith, entriesAt, ha, Option.map_some, project_self hi]
  | neg a iha | call f a iha =>
    refine pointwise_unary rfl rfl (fun _ => rfl) (iha (by simpa using he) hpow fun x hx => ?_)
    exact hρ x (mem_variableNames_iff_children.mpr (by simp [children, hx]))
  | binary op a b iha ihb =>
    obtain ⟨hea, heb⟩ := over_binary.mp he
    refine pointwise_operands rfl (fun _ _ => rfl) (fun hop => hpow (by simp [takesPower, hop]))
      (iha hea (fun h => hpow (by simp [takesPower, h])) fun x hx => ?_)
      (ihb heb (fun h => hpow (by simp [takesPower, h])) fun x hx => ?_)
    · exact hρ x (mem_variableNames_binary.mpr (.inl hx))
    · exact hρ x (mem_variableNames_binary.mpr (.inr hx))
  | powCall a b iha ihb =>
    obtain ⟨hea, heb⟩ := over_powCall.mp he
    refine pointwise_operands rfl (fun _ _ => rfl) (fun _ => hpow rfl)
      (iha hea (fun _ => hpow rfl) fun x hx => ?_) (ihb heb (fun _ => hpow rfl) fun x hx => ?_) <;>
      exact hρ x (mem_variableNames_iff_children.mpr (by simp [children, hx]))
  | unknown n a rest => exact (over_unknown.mp he).1.elim
  | blank => exact (not_over_blank he).elim
  | pair a b => exact (not_over_pair he).elim
  | datum j => exact (not_over_datum he).elim
  | oddVar n => exact (over_oddVar.mp he).elim

end Arrays

/-- Evaluation at arrays acts entry by entry, if the power does. Where the variables of the tree can be
broadcast together, there is a value; its shape is the one they have together, and a value without
dimensions is a number. Otherwise the evaluation fails on two shapes. Other variables do not matter. -/
theorem array_evaluation_is_pointwise {A : Arithmetic Float} {e : Expr} (he : e.Over .known)
    (hpow : e.takesPower = true → A.powEach = A.combine .pow) {ρ : String → Option (NdArray Float)}
    (hρ : ∀ x ∈ e.variableNames, ∃ a, ρ x = some a) :
    (Compatible (e.shapes ρ) → ∃ r, e.evalWith (interp A id) ρ = .ok r ∧
      (∀ u, IsJoint (e.shapes ρ) u ↔ u = r.shape) ∧
      (∀ i ∈ positions r.shape, e.evalWith (.scalar A id) (entriesAt ρ i) = .ok (r.entry i)) ∧
      (IsJoint (e.shapes ρ) [] → ∃ c, Value.ofArray r = .plain (.float c) ∧
        e.evalWith (.scalar A id) (entriesAt ρ []) = .ok c)) ∧
    (¬ Compatible (e.shapes ρ) → ∃ s t, e.evalWith (interp A id) ρ = .error (.shapes s t)) ∧
    ∀ ρ', (∀ x ∈ e.variableNames, ρ' x = ρ x) →
      e.evalWith (interp A id) ρ' = e.evalWith (interp A id) ρ := by
  have houtcome : PointwiseOrClash A id ρ e := pointwise_or_clash he hpow hρ
  refine ⟨fun hcompat => ?_, fun hclash => ?_, fun ρ' h => evalWith_congr h⟩
  · obtain ⟨r, hr, hpoint⟩ | ⟨hclash, -⟩ := houtcome
    · refine ⟨r, hr, fun u => ⟨fun hu => hu.unique hpoint.shape, ?_⟩, hpoint.entry, fun hnil => ?_⟩
      · rintro rfl
        exact hpoint.shape
      · have hshape : r.shape = [] := hpoint.shape.unique hnil
        refine ⟨r.entry [], by rw [Value.ofArray, hshape], hpoint.entry [] ?_⟩
        rw [hshape]
        exact List.mem_singleton.mpr rfl
    · exact (hclash hcompat).elim
  · obtain ⟨r, -, hpoint⟩ | ⟨-, hfail⟩ := houtcome
    · exact (hclash hpoint.shape.compatible).elim
    · exact hfail

/-- A column, a row and a number are broadcast together; a row of two and a row of three are not. -/
theorem array_evaluation_is_pointwise_mixed :
    let e := add (mul (var "x") (var "y")) (call .exp (var "z"))
    let column : NdArray Float := .ofRowMajor [2, 1] #[4, 5]
    let pair : NdArray Float := .ofRowMajor [2] #[4, 5]
    let row : NdArray Float := .ofRowMajor [3] #[10, 20, 30]
    e.Over .known ∧ e.takesPower = false ∧
    (∃ r, e.eval [("x", column), ("y", row), ("z", .scalar 7)] = .ok r ∧ r.shape = [2, 3] ∧
      r.entry [1, 2] = 5 * 30 + Float.exp 7) ∧
    ∃ s t, e.eval [("x", pair), ("y", row), ("z", .scalar 7)] = .error (.shapes s t) := by
  intro e column pair row
  have he : e.Over .known := by simp [e, add, mul, Vocabulary.known]
  have hpow : e.takesPower = true → Arithmetic.double.powEach = Arithmetic.double.combine .pow :=
    fun h => absurd h (by decide)
  have hvars : e.variableNames = ["x", "y", "z"] := rfl
  have hbound (x : NdArray Float) : ∀ name ∈ e.variableNames, ∃ a,
      Table.find? [("x", x), ("y", row), ("z", .scalar 7)] name = some a := by
    simp [hvars, Table.find?]
  have hshapes (x : NdArray Float) :
      e.shapes (Table.find? [("x", x), ("y", row), ("z", .scalar 7)]) = {x.shape, [3], []} := by
    ext s
    simp [shapes, hvars, Table.find?, row, NdArray.ofRowMajor, NdArray.scalar, eq_comm]
  refine ⟨he, rfl, ?_, ?_⟩
  · obtain ⟨hfits, -, -⟩ := array_evaluation_is_pointwise (A := .double) he hpow (hbound column)
    obtain ⟨r, hr, hshape, hentry, -⟩ := hfits <| by
      rw [hshapes]
      rintro s (rfl | rfl | rfl) t (rfl | rfl | rfl) (_ | _ | k) <;>
        simp [extent, column, NdArray.ofRowMajor]
    have hr23 : [2, 3] = r.shape := (hshape [2, 3]).mp <| by
      rw [hshapes]
      refine ⟨fun n => ?_, ?_⟩
      · simp [column, NdArray.ofRowMajor]
        omega
      · rintro (_ | _ | k) n hn <;> simp [extent, column, NdArray.ofRowMajor] <;> omega
    refine ⟨r, hr, hr23.symm, ?_⟩
    exact (Except.ok.inj (hentry [1, 2] (hr23 ▸ by decide))).symm
  · obtain ⟨-, hclash, -⟩ := array_evaluation_is_pointwise (A := .double) he hpow (hbound pair)
    refine hclash fun h => ?_
    rw [hshapes] at h
    exact absurd (h [2] (.inl rfl) [3] (.inr (.inl rfl)) 0) (by decide)

end Nabla.Expr
