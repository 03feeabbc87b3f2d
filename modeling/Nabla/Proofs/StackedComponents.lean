import Nabla.Field
import Nabla.Proofs.Keys
import Nabla.Proofs.PointwiseEvaluation

/-!
# Several components at arrays

The components of a function are evaluated one by one and their values are stacked. The shape of a
value depends on the variables of the component alone, so at numbers and lists of one length a component
gives a list exactly if it mentions a parameter that stands for one. The components fit together if all
of them do or none does; otherwise nothing is stacked.
-/

namespace Nabla

/-! ## Shapes of lists -/

namespace NdArray

theorem isJoint_nil {shapes : Set (List Nat)} (h : shapes ⊆ {[]}) : IsJoint shapes [] := by
  rcases Set.subset_singleton_iff_eq.mp h with rfl | rfl
  · exact isJoint_empty
  · exact isJoint_singleton []

theorem isJoint_of_mem {shapes : Set (List Nat)} {s : List Nat} (h : shapes ⊆ {[], s})
    (hs : s ∈ shapes) : IsJoint shapes s where
  rank n := by
    refine ⟨fun hn t ht => ?_, fun hn => hn s hs⟩
    rcases h ht with rfl | rfl
    · exact Nat.zero_le n
    · exact hn
  size k n hn := by
    refine ⟨fun hk => ⟨s, hs, hk⟩, ?_⟩
    rintro ⟨t, ht, rfl⟩
    rcases h ht with rfl | rfl
    · exact absurd rfl hn
    · rfl

theorem exists_stack {rows : List (NdArray Float)} {s : List Nat} (hne : rows ≠ [])
    (h : ∀ x ∈ rows, x.shape = s) :
    ∃ r, stack rows = .ok r ∧ r.shape = rows.length :: s ∧
      ∀ i x, rows[i]? = some x → ∀ position, r.entry (i :: position) = x.entry position := by
  have hshapes : ∀ t ∈ rows.map shape, t = s := List.forall_mem_map.mpr h
  have heven : even (rows.map shape) = true :=
    even_eq_true_iff.mpr fun t ht u hu => (hshapes t ht).trans (hshapes u hu).symm
  refine ⟨_, if_pos heven, ?_, fun i x hx position => ?_⟩
  · show rowShape (rows.map shape) = _
    rw [rowShape_of_forall_eq (by simpa using hne) hshapes, List.length_map]
  · show ((rows[i]?).map fun x => x.entry position).getD default = _
    rw [hx]
    rfl

theorem stack_of_mixed {rows : List (NdArray Float)} {x y : NdArray Float} (hx : x ∈ rows)
    (hy : y ∈ rows) (hx0 : x.shape = []) (hy0 : y.shape ≠ []) :
    stack rows = .error (.ragged [rows.length]) := by
  have hmem : [] ∈ rows.map shape := List.mem_map.mpr ⟨x, hx, hx0⟩
  have huneven : ¬ even (rows.map shape) = true := by
    intro h
    exact hy0 (even_eq_true_iff.mp h _ (List.mem_map_of_mem hy) _ hmem)
  unfold stack
  rw [if_neg huneven, rowShape_of_nil_mem hmem, List.length_map]

end NdArray

/-- The same arithmetic, with one way of taking powers for numbers and arrays alike. -/
def Arithmetic.uniform {α : Type} (A : Arithmetic α) : Arithmetic α :=
  { A with powEach := A.combine .pow }

namespace Expr

open NdArray

variable {α : Type} (A : Arithmetic α) (embed : Float → α) {ρ : String → Option (NdArray α)}

/-! ## The value of a component -/

/-- The shape that two shapes are broadcast to. -/
def joinShapes (s t : List Nat) : Except Error (List Nat) :=
  match joinShape? s t with
  | some u => .ok u
  | none => .error (.shapes s t)

/-- Evaluation in shapes. -/
def shapeInterp : Interp (List Nat) where
  const _ := []
  neg s := s
  call _ s := s
  combine _ s t := joinShapes s t

theorem map_shape_zipWith (f : α → α → α) (x y : NdArray α) :
    (NdArray.zipWith f x y).map NdArray.shape = joinShapes x.shape y.shape := by
  unfold NdArray.zipWith joinShapes
  cases joinShape? x.shape y.shape <;> rfl

theorem map_shape_combine (op : BinOp) (m m' : Except Error (NdArray α)) :
    (do (interp A embed).combine op (← m) (← m')).map NdArray.shape =
      (do shapeInterp.combine op (← m.map NdArray.shape) (← m'.map NdArray.shape)) := by
  cases m with
  | error err => rfl
  | ok x =>
    cases m' with
    | error err => rfl
    | ok y => exact map_shape_zipWith _ x y

theorem map_shape_evalWith (e : Expr) :
    (e.evalWith (interp A embed) ρ).map NdArray.shape =
      e.evalWith shapeInterp fun x => (ρ x).map NdArray.shape := by
  induction e with
  | const | unknown | blank | pair | datum | oddVar => rfl
  | var x =>
    unfold evalWith
    cases ρ x <;> rfl
  | neg a iha | call f a iha =>
    rw [evalWith, evalWith, ← iha]
    cases a.evalWith (interp A embed) ρ <;> rfl
  | binary op a b iha ihb | powCall a b iha ihb =>
    rw [evalWith, evalWith, ← iha, ← ihb]
    exact map_shape_combine A embed _ _ _

/-- No variable in an exponent stands for an array. -/
def NumberExponents (ρ : String → Option (NdArray α)) : Expr → Prop
  | neg a | call _ a => a.NumberExponents ρ
  | binary op a b =>
    a.NumberExponents ρ ∧ b.NumberExponents ρ ∧ (op = .pow → b.shapes ρ ⊆ {[]})
  | powCall a b => a.NumberExponents ρ ∧ b.NumberExponents ρ ∧ b.shapes ρ ⊆ {[]}
  | const _ | var _ | unknown _ _ _ | blank | pair _ _ | datum _ | oddVar _ => True

theorem numberExponents_of_shapes {e : Expr} (h : e.shapes ρ ⊆ {[]}) : e.NumberExponents ρ := by
  induction e with
  | const | var | unknown | blank | pair | datum | oddVar => trivial
  | neg a iha | call f a iha => exact iha ((shapes_unary rfl).symm.subset.trans h)
  | binary op a b iha ihb =>
    rw [shapes_of_operands rfl, Set.union_subset_iff] at h
    exact ⟨iha h.1, ihb h.2, fun _ => h.2⟩
  | powCall a b iha ihb =>
    rw [shapes_of_operands rfl, Set.union_subset_iff] at h
    exact ⟨iha h.1, ihb h.2, h.2⟩

theorem combine_uniform {op : BinOp} {x y : NdArray α} (h : op = .pow → y.shape = []) :
    (interp A.uniform embed).combine op x y = (interp A embed).combine op x y := by
  cases op with
  | add | sub | mul | div => rfl
  | pow =>
    show NdArray.zipWith (entryOp A.uniform .pow x.shape y.shape) x y =
      NdArray.zipWith (entryOp A .pow x.shape y.shape) x y
    rw [h rfl]
    rfl

theorem pointwise_or_clash_uniform {e : Expr} (he : e.Over (.bound ρ)) :
    PointwiseOrClash A.uniform embed ρ e := by
  have hknown : e.Over .known := he.mono (fun _ _ => trivial) (fun _ h => h) fun _ h => h
  refine pointwise_or_clash hknown (fun _ => rfl) fun x hx => ?_
  exact Option.isSome_iff_exists.mp (he.hasVar_of_mem hx)

theorem shape_eq_nil {e : Expr} {r : NdArray α} (he : e.Over (.bound ρ)) (h : e.shapes ρ ⊆ {[]})
    (hr : e.evalWith (interp A.uniform embed) ρ = .ok r) : r.shape = [] := by
  obtain ⟨r', hr', hpoint⟩ | ⟨-, s, t, hfail⟩ :=
    pointwise_or_clash_uniform A embed he
  · obtain rfl : r' = r := Except.ok.inj (hr'.symm.trans hr)
    exact hpoint.shape.unique (isJoint_nil h)
  · rw [hr] at hfail
    cases hfail

theorem bind_combine_uniform {a b : Expr} {op : BinOp} (hb : b.Over (.bound ρ))
    (hexp : op = .pow → b.shapes ρ ⊆ {[]})
    (iha : a.evalWith (interp A.uniform embed) ρ = a.evalWith (interp A embed) ρ)
    (ihb : b.evalWith (interp A.uniform embed) ρ = b.evalWith (interp A embed) ρ) :
    (do
      let x ← a.evalWith (interp A.uniform embed) ρ
      let y ← b.evalWith (interp A.uniform embed) ρ
      (interp A.uniform embed).combine op x y) =
    (do
      let x ← a.evalWith (interp A embed) ρ
      let y ← b.evalWith (interp A embed) ρ
      (interp A embed).combine op x y) := by
  rw [← iha, ← ihb]
  cases a.evalWith (interp A.uniform embed) ρ with
  | error err => rfl
  | ok x =>
    cases hy : b.evalWith (interp A.uniform embed) ρ with
    | error err => rfl
    | ok y => exact combine_uniform A embed fun hop => shape_eq_nil A embed hb (hexp hop) hy

theorem evalWith_uniform {e : Expr} (he : e.Over (.bound ρ)) (h : e.NumberExponents ρ) :
    e.evalWith (interp A.uniform embed) ρ = e.evalWith (interp A embed) ρ := by
  induction e with
  | const | var | unknown | blank | pair | datum | oddVar => rfl
  | neg a iha | call f a iha =>
    rw [evalWith, evalWith, iha (by simpa using he) h]
    rfl
  | binary op a b iha ihb =>
    obtain ⟨hea, heb⟩ := over_binary.mp he
    exact bind_combine_uniform A embed heb h.2.2 (iha hea h.1) (ihb heb h.2.1)
  | powCall a b iha ihb =>
    obtain ⟨hea, heb⟩ := over_powCall.mp he
    exact bind_combine_uniform A embed heb (fun _ => h.2.2) (iha hea h.1) (ihb heb h.2.1)

theorem exists_evalWith {e : Expr} (he : e.Over (.bound ρ)) {u : List Nat}
    (hu : IsJoint (e.shapes ρ) u) :
    ∃ r, e.evalWith (interp A embed) ρ = .ok r ∧ r.shape = u ∧ (e.NumberExponents ρ →
      ∀ i ∈ positions u, e.evalWith (.scalar A embed) (entriesAt ρ i) = .ok (r.entry i)) := by
  obtain ⟨r', hr', hpoint⟩ | ⟨hclash, -⟩ :=
    pointwise_or_clash_uniform A embed he
  · obtain rfl : r'.shape = u := hpoint.shape.unique hu
    have hshape : (e.evalWith (interp A embed) ρ).map NdArray.shape = .ok r'.shape := by
      rw [map_shape_evalWith, ← map_shape_evalWith A.uniform embed, hr']
      rfl
    obtain ⟨r, hr, hrshape⟩ := map_eq_ok_iff.mp hshape
    refine ⟨r, hr, hrshape, fun h => ?_⟩
    rw [evalWith_uniform A embed he h, hr] at hr'
    cases hr'
    exact hpoint.entry
  · exact (hclash hu.compatible).elim

/-- Known functions of the given variables. -/
def Vocabulary.parameters (ps : List String) : Vocabulary := ⟨(· ∈ ps), fun _ => False, fun _ => False⟩

end Expr

/-! ## Functions of several components -/

namespace Lambda

/-- One argument for each parameter, a number or a list of `m` numbers, and no parameter that nothing
can be bound to. -/
structure Batch (ps : List String) (args : List (NdArray Float)) (m : Nat) : Prop where
  length : args.length = ps.length
  shape : ∀ a ∈ args, a.shape = [] ∨ a.shape = [m]
  names : reserved ∉ ps

/-- What the arguments make of the variables. -/
def assignment (ps : List String) (args : List (NdArray Float)) : String → Option (NdArray Float) :=
  (Table.ofPairs (ps.zip args)).find?

/-- The expression mentions a parameter that stands for a list. -/
def TakesList (ps : List String) (args : List (NdArray Float)) (e : Expr) : Prop :=
  ∃ x ∈ e.variableNames, ∃ a, assignment ps args x = some a ∧ a.shape ≠ []

/-- What an argument is at the point `j`. -/
def numberAt (j : Nat) (a : NdArray Float) : Float :=
  match a.shape with
  | [] => a.entry []
  | _ => a.entry [j]

/-- The arguments at the point `j`. -/
def point (args : List (NdArray Float)) (j : Nat) : List (NdArray Float) :=
  (args.map (numberAt j)).map .scalar

variable {ps : List String} {args : List (NdArray Float)} {m : Nat} {e : Expr}

theorem checkNames_of_not_mem (h : reserved ∉ ps) :
    checkNames (Table.ofPairs (ps.zip args)) = .ok (Table.ofPairs (ps.zip args)) := by
  rw [checkNames, Table.find?_ofPairs_of_not_mem h]
  rfl

theorem evaluate_scalar (hlen : args.length = ps.length) (hnames : reserved ∉ ps) (e : Expr) :
    (⟨ps, .scalar e⟩ : Lambda).evaluate args = e.eval (Table.ofPairs (ps.zip args)) := by
  show (if args.length ≠ ps.length then _ else
    (do e.eval (← checkNames (Table.ofPairs (ps.zip args))))) = _
  rw [if_neg (not_not.mpr hlen), checkNames_of_not_mem hnames]
  rfl

theorem evaluate_array (hlen : args.length = ps.length) (hnames : reserved ∉ ps) (es : List Expr) :
    (⟨ps, .array es⟩ : Lambda).evaluate args =
      (do NdArray.stack (← es.mapM fun e => e.eval (Table.ofPairs (ps.zip args)))) := by
  show (if args.length ≠ ps.length then _ else
    (do NdArray.stack (← es.mapM fun e : Expr => do
      e.eval (← checkNames (Table.ofPairs (ps.zip args)))))) = _
  rw [if_neg (not_not.mpr hlen), checkNames_of_not_mem hnames]
  rfl

theorem evaluate_point (h : Batch ps args m) (e : Expr) (j : Nat) :
    (⟨ps, .scalar e⟩ : Lambda).evaluate (point args j) =
      (e.evalWith (.scalar .double id) fun x => (assignment ps args x).map (numberAt j)).map
        .scalar := by
  rw [evaluate_scalar (by simp [point, h.length]) h.names]
  refine (eval_bindings e ps (args.map (numberAt j))).trans ?_
  congr 2
  funext x
  rw [List.zip_map_right, Table.ofPairs_map, Table.find?_map, assignment]

/-! ## One component -/

theorem Batch.shape_of_assignment (h : Batch ps args m) {x : String} {a : NdArray Float}
    (ha : assignment ps args x = some a) : a.shape = [] ∨ a.shape = [m] :=
  h.shape a (List.of_mem_zip (Table.mem_of_find?_ofPairs ha)).2

theorem Batch.over_bound (h : Batch ps args m) (he : e.Over (.parameters ps)) :
    e.Over (.bound (assignment ps args)) :=
  he.mono (fun _ hx => Option.isSome_iff_exists.mpr (Table.exists_find?_ofPairs hx h.length))
    (fun _ hf => hf) fun _ hn => hn

theorem Batch.shapes_subset (h : Batch ps args m) : e.shapes (assignment ps args) ⊆ {[], [m]} := by
  rintro s ⟨x, -, a, ha, rfl⟩
  exact h.shape_of_assignment ha

theorem Batch.takesList_iff (h : Batch ps args m) :
    TakesList ps args e ↔ [m] ∈ e.shapes (assignment ps args) := by
  constructor
  · rintro ⟨x, hx, a, ha, hne⟩
    exact ⟨x, hx, a, ha, (h.shape_of_assignment ha).resolve_left hne⟩
  · rintro ⟨x, hx, a, ha, hshape⟩
    exact ⟨x, hx, a, ha, by simp [hshape]⟩

theorem numberAt_eq {a : NdArray Float} (h : a.shape = [] ∨ a.shape = [m]) {j : Nat} (hj : j < m) :
    a.entry (NdArray.project a.shape [j]) = numberAt j a := by
  rcases h with h | h
  · rw [numberAt, h]
    rfl
  · have hmem : [j] ∈ NdArray.positions [m] := by simpa [NdArray.positions] using hj
    rw [numberAt, h, NdArray.project_self hmem]

theorem Batch.evaluate_point_eq (h : Batch ps args m) {i : List Nat} {j : Nat} {c : Float}
    (hpoint : ∀ x ∈ e.variableNames, ∀ a, assignment ps args x = some a →
      a.entry (NdArray.project a.shape i) = numberAt j a)
    (hc : e.evalWith (.scalar .double id) (Expr.entriesAt (assignment ps args) i) = .ok c) :
    (⟨ps, .scalar e⟩ : Lambda).evaluate (point args j) = .ok (.scalar c) := by
  have hcongr : ∀ x ∈ e.variableNames, (assignment ps args x).map (numberAt j) =
      Expr.entriesAt (assignment ps args) i x := by
    intro x hx
    rw [Expr.entriesAt]
    cases ha : assignment ps args x with
    | none => rfl
    | some a => rw [Option.map_some, Option.map_some, hpoint x hx a ha]
  rw [evaluate_point h, Expr.evalWith_congr hcongr, hc]
  rfl

theorem Batch.eval_of_takesList (h : Batch ps args m) (he : e.Over (.parameters ps))
    (htakes : TakesList ps args e) :
    ∃ r, e.eval (Table.ofPairs (ps.zip args)) = .ok r ∧ r.shape = [m] ∧
      (e.NumberExponents (assignment ps args) → ∀ j < m,
        (⟨ps, .scalar e⟩ : Lambda).evaluate (point args j) = .ok (.scalar (r.entry [j]))) := by
  have hjoint := NdArray.isJoint_of_mem h.shapes_subset (h.takesList_iff.mp htakes)
  obtain ⟨r, hr, hshape, hentry⟩ :=
    Expr.exists_evalWith .double id (h.over_bound he) hjoint
  refine ⟨r, hr, hshape, fun hexp j hj => ?_⟩
  refine h.evaluate_point_eq (fun x _ a ha => ?_) (hentry hexp [j] ?_)
  · exact numberAt_eq (h.shape_of_assignment ha) hj
  · simpa [NdArray.positions] using hj

theorem Batch.eval_of_not_takesList (h : Batch ps args m) (he : e.Over (.parameters ps))
    (htakes : ¬ TakesList ps args e) :
    ∃ r, e.eval (Table.ofPairs (ps.zip args)) = .ok r ∧ r.shape = [] ∧
      ∀ j, (⟨ps, .scalar e⟩ : Lambda).evaluate (point args j) = .ok (.scalar (r.entry [])) := by
  have hnumber : ∀ x ∈ e.variableNames, ∀ a, assignment ps args x = some a → a.shape = [] := by
    intro x hx a ha
    by_contra hne
    exact htakes ⟨x, hx, a, ha, hne⟩
  have hshapes : e.shapes (assignment ps args) ⊆ {[]} := by
    rintro s ⟨x, hx, a, ha, rfl⟩
    exact hnumber x hx a ha
  obtain ⟨r, hr, hshape, hentry⟩ :=
    Expr.exists_evalWith .double id (h.over_bound he) (NdArray.isJoint_nil hshapes)
  refine ⟨r, hr, hshape, fun j => ?_⟩
  refine h.evaluate_point_eq (fun x hx a ha => ?_)
    (hentry (Expr.numberExponents_of_shapes hshapes) [] (List.mem_singleton.mpr rfl))
  rw [numberAt, hnumber x hx a ha]
  rfl

end Lambda

theorem Field.evaluate_eq {F : Field} (h : F.bodies ≠ []) (args : List (NdArray Float)) :
    F.evaluate args = F.toLambda.evaluate args := by
  obtain ⟨e, es, hbodies⟩ := List.exists_cons_of_ne_nil h
  let one (e : Expr) : Except Error (NdArray Float) := do
    e.eval (← Lambda.checkNames (Table.ofPairs (F.parameters.zip args)))
  have hmap : F.functions.mapM (fun f => f.evaluateWith Lambda.checkNames args) =
      F.bodies.mapM fun e => if args.length ≠ F.parameters.length then
        .error (.argumentCount F.parameters args.length) else one e := List.mapM_map
  show (do NdArray.stack (← F.functions.mapM fun f => f.evaluateWith Lambda.checkNames args)) =
    if args.length ≠ F.parameters.length then .error (.argumentCount F.parameters args.length)
    else do NdArray.stack (← F.bodies.mapM one)
  rw [hmap]
  by_cases hlen : args.length ≠ F.parameters.length
  · simp only [if_pos hlen]
    rw [hbodies, List.mapM_cons]
    rfl
  · simp only [if_neg hlen]

/-! ## Stacking -/

namespace Lambda

variable {ps : List String} {args : List (NdArray Float)} {m : Nat} {es : List Expr}

theorem Batch.exists_rows (h : Batch ps args m) (hes : ∀ e ∈ es, e.Over (.parameters ps)) :
    ∃ rows, es.mapM (fun e => e.eval (Table.ofPairs (ps.zip args))) = .ok rows := by
  refine exists_mapM fun e he => ?_
  by_cases htakes : TakesList ps args e
  · obtain ⟨r, hr, -⟩ := h.eval_of_takesList (hes e he) htakes
    exact ⟨r, hr⟩
  · obtain ⟨r, hr, -⟩ := h.eval_of_not_takesList (hes e he) htakes
    exact ⟨r, hr⟩

theorem Batch.exists_stacked (h : Batch ps args m) (hne : es ≠ []) {s : List Nat}
    {P : Expr → NdArray Float → Prop}
    (hrow : ∀ e ∈ es, ∃ x, e.eval (Table.ofPairs (ps.zip args)) = .ok x ∧ x.shape = s ∧ P e x) :
    ∃ r, (⟨ps, .array es⟩ : Lambda).evaluate args = .ok r ∧ r.shape = es.length :: s ∧
      ∀ i e, es[i]? = some e → ∃ x, P e x ∧
        ∀ position, r.entry (i :: position) = x.entry position := by
  obtain ⟨rows, hrows⟩ := exists_mapM fun e he => (hrow e he).imp fun _ hx => hx.1
  have hforall := mapM_eq_ok_iff.mp hrows
  have hrowsne : rows ≠ [] := by
    rintro rfl
    cases hforall
    exact hne rfl
  have hshape : ∀ x ∈ rows, x.shape = s := by
    intro x hx
    obtain ⟨e, he, hex⟩ := exists_left_of_mem hforall hx
    obtain ⟨x', hx', hshape, -⟩ := hrow e he
    obtain rfl : x' = x := Except.ok.inj (hx'.symm.trans hex)
    exact hshape
  obtain ⟨r, hr, hrshape, hentry⟩ := NdArray.exists_stack hrowsne hshape
  refine ⟨r, ?_, ?_, fun i e hi => ?_⟩
  · rw [evaluate_array h.length h.names, hrows]
    exact hr
  · rw [hrshape, hforall.length_eq]
  · obtain ⟨x, hx, hex⟩ := exists_getElem?_of_mapM hrows hi
    obtain ⟨x', hx', -, hP⟩ := hrow e (List.mem_of_getElem? hi)
    obtain rfl : x' = x := Except.ok.inj (hx'.symm.trans hex)
    exact ⟨x', hP, hentry i x' hx⟩

theorem Batch.evaluate_of_all_take (h : Batch ps args m) (hne : es ≠ [])
    (hes : ∀ e ∈ es, e.Over (.parameters ps)) (hall : ∀ e ∈ es, TakesList ps args e) :
    ∃ r, (⟨ps, .array es⟩ : Lambda).evaluate args = .ok r ∧ r.shape = [es.length, m] ∧
      ∀ i e, es[i]? = some e → e.NumberExponents (assignment ps args) → ∀ j < m,
        (⟨ps, .scalar e⟩ : Lambda).evaluate (point args j) = .ok (.scalar (r.entry [i, j])) := by
  obtain ⟨r, hr, hshape, hentry⟩ :=
    h.exists_stacked hne fun e he => h.eval_of_takesList (hes e he) (hall e he)
  refine ⟨r, hr, hshape, fun i e hi hexp j hj => ?_⟩
  obtain ⟨x, hpoint, hrow⟩ := hentry i e hi
  rw [hrow]
  exact hpoint hexp j hj

theorem Batch.evaluate_of_none_takes (h : Batch ps args m) (hne : es ≠ [])
    (hes : ∀ e ∈ es, e.Over (.parameters ps)) (hnone : ∀ e ∈ es, ¬ TakesList ps args e) :
    ∃ r, (⟨ps, .array es⟩ : Lambda).evaluate args = .ok r ∧ r.shape = [es.length] ∧
      ∀ i e, es[i]? = some e → ∀ j,
        (⟨ps, .scalar e⟩ : Lambda).evaluate (point args j) = .ok (.scalar (r.entry [i])) := by
  obtain ⟨r, hr, hshape, hentry⟩ :=
    h.exists_stacked hne fun e he => h.eval_of_not_takesList (hes e he) (hnone e he)
  refine ⟨r, hr, hshape, fun i e hi j => ?_⟩
  obtain ⟨x, hpoint, hrow⟩ := hentry i e hi
  rw [hrow]
  exact hpoint j

theorem Batch.evaluate_of_mixed (h : Batch ps args m) (hes : ∀ e ∈ es, e.Over (.parameters ps))
    {e e' : Expr} (he : e ∈ es) (he' : e' ∈ es) (htakes : TakesList ps args e)
    (htakes' : ¬ TakesList ps args e') :
    (⟨ps, .array es⟩ : Lambda).evaluate args = .error (.ragged [es.length]) := by
  obtain ⟨rows, hrows⟩ := h.exists_rows hes
  have hforall := mapM_eq_ok_iff.mp hrows
  obtain ⟨x, hx, hex⟩ := exists_right_of_mem hforall he
  obtain ⟨y, hy, hey⟩ := exists_right_of_mem hforall he'
  obtain ⟨r, hr, hrshape, -⟩ := h.eval_of_takesList (hes e he) htakes
  obtain ⟨r', hr', hrshape', -⟩ := h.eval_of_not_takesList (hes e' he') htakes'
  obtain rfl : r = x := Except.ok.inj (hr.symm.trans hex)
  obtain rfl : r' = y := Except.ok.inj (hr'.symm.trans hey)
  rw [evaluate_array h.length h.names, hrows]
  show NdArray.stack rows = _
  rw [NdArray.stack_of_mixed hy hx hrshape' (by simp [hrshape]), hforall.length_eq]

/-- The components give a table with one row each and one column for each point exactly if every
component mentions a parameter that stands for a list; then each entry is the value of its component at
its point, as far as no exponent is a list. If no component mentions one, there is a single value each,
and if some do and some do not, the values are not stacked at all. The same holds of a field. -/
theorem stacked_evaluation_is_pointwise_iff (hne : es ≠ []) (hes : ∀ e ∈ es, e.Over (.parameters ps))
    (h : Batch ps args m) :
    ((∀ e ∈ es, TakesList ps args e) ↔
      ∃ r, (⟨ps, .array es⟩ : Lambda).evaluate args = .ok r ∧ r.shape = [es.length, m] ∧
        ∀ i e, es[i]? = some e → e.NumberExponents (assignment ps args) → ∀ j < m,
          (⟨ps, .scalar e⟩ : Lambda).evaluate (point args j) = .ok (.scalar (r.entry [i, j]))) ∧
    ((∀ e ∈ es, ¬ TakesList ps args e) →
      ∃ r, (⟨ps, .array es⟩ : Lambda).evaluate args = .ok r ∧ r.shape = [es.length] ∧
        ∀ i e, es[i]? = some e → ∀ j,
          (⟨ps, .scalar e⟩ : Lambda).evaluate (point args j) = .ok (.scalar (r.entry [i]))) ∧
    ((∃ e ∈ es, TakesList ps args e) → (∃ e ∈ es, ¬ TakesList ps args e) →
      (⟨ps, .array es⟩ : Lambda).evaluate args = .error (.ragged [es.length])) ∧
    ∀ F : Field, F.toLambda = ⟨ps, .array es⟩ →
      F.evaluate args = (⟨ps, .array es⟩ : Lambda).evaluate args := by
  refine ⟨⟨h.evaluate_of_all_take hne hes, ?_⟩, h.evaluate_of_none_takes hne hes, ?_, ?_⟩
  · rintro ⟨r, hr, hshape, -⟩ e he
    by_contra htakes
    by_cases hsome : ∃ e ∈ es, TakesList ps args e
    · obtain ⟨e', he', htakes'⟩ := hsome
      rw [h.evaluate_of_mixed hes he' he htakes' htakes] at hr
      cases hr
    · obtain ⟨r', hr', hshape', -⟩ :=
        h.evaluate_of_none_takes hne hes fun e he htakes => hsome ⟨e, he, htakes⟩
      obtain rfl : r' = r := Except.ok.inj (hr'.symm.trans hr)
      rw [hshape] at hshape'
      cases hshape'
  · rintro ⟨e, he, htakes⟩ ⟨e', he', htakes'⟩
    exact h.evaluate_of_mixed hes he he' htakes htakes'
  · intro F hF
    rw [← hF]
    refine Field.evaluate_eq (fun hbodies => hne ?_) args
    rw [Field.toLambda, hbodies] at hF
    cases hF
    rfl

/-- A square and a sum at a list and a number. Of the repeated parameter the second argument counts. -/
theorem stacked_evaluation_is_pointwise_iff_square :
    let square := Expr.power (.var "x") Expr.two
    let sum := Expr.add (.var "x") (.var "y")
    let ps := ["x", "x", "y"]
    let args : List (NdArray Float) := [.scalar 7, .ofRowMajor [2] #[1, 3], .scalar 5]
    Batch ps args 2 ∧ (∀ e ∈ [square, sum], e.Over (.parameters ps)) ∧
      ∃ r, (⟨ps, .array [square, sum]⟩ : Lambda).evaluate args = .ok r ∧ r.shape = [2, 2] ∧
        (⟨ps, .scalar square⟩ : Lambda).evaluate [.scalar 7, .scalar 3, .scalar 5] =
          .ok (.scalar (r.entry [0, 1])) := by
  intro square sum ps args
  have hbatch : Batch ps args 2 := by
    refine ⟨rfl, ?_, by decide⟩
    simp [args, NdArray.scalar, NdArray.ofRowMajor]
  have hover : ∀ e ∈ [square, sum], e.Over (.parameters ps) := by
    simp [square, sum, ps, Expr.power, Expr.two, Expr.add, Expr.Vocabulary.parameters]
  have htakes : ∀ e ∈ [square, sum], TakesList ps args e := by
    have hx : assignment ps args "x" = some (.ofRowMajor [2] #[1, 3]) := rfl
    refine List.forall_mem_cons.mpr ⟨⟨"x", by decide, _, hx, by decide⟩, ?_⟩
    exact List.forall_mem_singleton.mpr ⟨"x", by decide, _, hx, by decide⟩
  have hexp : square.NumberExponents (assignment ps args) := by
    refine ⟨trivial, trivial, fun _ => ?_⟩
    simp [Expr.shapes, Expr.two, Expr.variableNames, Expr.collect]
  obtain ⟨hiff, -⟩ := stacked_evaluation_is_pointwise_iff (List.cons_ne_nil _ _) hover hbatch
  obtain ⟨r, hr, hshape, hentry⟩ := hiff.mp htakes
  exact ⟨hbatch, hover, r, hr, hshape, hentry 0 square rfl hexp 1 (by decide)⟩

/-- At a list and a number the two variables themselves are a list and a number, and are not
stacked. -/
theorem list_and_number_are_not_stacked :
    let es := [Expr.var "x", Expr.var "y"]
    let args : List (NdArray Float) := [.ofRowMajor [2] #[1, 2], .scalar 3]
    Batch ["x", "y"] args 2 ∧ (∀ e ∈ es, e.Over (.parameters ["x", "y"])) ∧
      (⟨["x", "y"], .array es⟩ : Lambda).evaluate args = .error (.ragged [2]) := by
  intro es args
  refine ⟨⟨rfl, ?_, by decide⟩, ?_, rfl⟩
  · simp [args, NdArray.scalar, NdArray.ofRowMajor]
  · simp [es, Expr.Vocabulary.parameters]

end Lambda

end Nabla
