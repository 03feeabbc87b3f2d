import Nabla.Proofs.Double.Zeros
import Nabla.Proofs.JacobianPattern
import Nabla.Proofs.Simplification

/-!
# Affine systems

For `c * f` the product rule leaves a product of `f` and zero in the derivative. It folds away whatever
`f` is, so the derivative of an affine expression simplifies to a constant: to the coefficient of the
variable, as long as no folding overflows. The Jacobian of affine equations has no variables left, and
so it is the same matrix at all points.
-/

namespace Nabla

namespace Expr

/-! ## Affine expressions -/

/-- Sums, differences, opposites and multiples of constants and variables. One factor of a product is
a constant as it stands. -/
inductive Affine : Expr → Prop
  | const (c : Float) : Affine (const c)
  | var (y : String) : Affine (var y)
  | neg {a : Expr} : Affine a → Affine (neg a)
  | add {a b : Expr} : Affine a → Affine b → Affine (add a b)
  | sub {a b : Expr} : Affine a → Affine b → Affine (sub a b)
  | scaleLeft (c : Float) {b : Expr} : Affine b → Affine (mul (const c) b)
  | scaleRight {a : Expr} (c : Float) : Affine a → Affine (mul a (const c))

/-- The coefficient of a variable in an affine expression, computed in doubles. -/
def coefficient (x : String) : Expr → Float
  | var y => if y = x then 1 else 0
  | neg a => -coefficient x a
  | binary .add a b => coefficient x a + coefficient x b
  | binary .sub a b => coefficient x a - coefficient x b
  | binary .mul (const c) b => c * coefficient x b
  | binary .mul a (const c) => c * coefficient x a
  | _ => 0

theorem coefficient_mul_const {a : Expr} (ha : a.isConst = false) (x : String) (c : Float) :
    coefficient x (mul a (const c)) = c * coefficient x a := by
  cases a with
  | const d => cases ha
  | _ => rfl

theorem Affine.finished {e : Expr} (h : e.Affine) : e.obstacle = none := by
  induction h with
  | const | var => rfl
  | neg _ ih => exact ih
  | add _ _ iha ihb | sub _ _ iha ihb => exact orElse_eq_none_iff.mpr ⟨iha, ihb⟩
  | scaleLeft c _ ih => exact orElse_eq_none_iff.mpr ⟨rfl, ih⟩
  | scaleRight c _ ih => exact orElse_eq_none_iff.mpr ⟨ih, rfl⟩

/-! ## Foldings without overflow -/

/-- All results of one pass are finite. -/
def FiniteFoldings (e : Expr) : Prop := ∀ c ∈ e.foldings, c.result.isFinite = true

instance (e : Expr) : Decidable e.FiniteFoldings :=
  inferInstanceAs (Decidable (∀ c ∈ e.foldings, c.result.isFinite = true))

theorem finiteFoldings_binary {op : BinOp} {a b : Expr} :
    (binary op a b).FiniteFoldings ↔ a.FiniteFoldings ∧ b.FiniteFoldings ∧
      ∀ c ∈ operatorFolding op (simplifyWith .double a) (simplifyWith .double b),
        c.result.isFinite = true := by
  simp [FiniteFoldings, foldings, or_imp, forall_and]

/-- A pass makes a constant of the expression, and the given number unless a folding overflows. -/
def FoldsTo (e : Expr) (v : Float) : Prop :=
  ∃ c, simplifyWith .double e = const c ∧
    (e.FiniteFoldings → c.isFinite = true ∧ Double.SameNumber c v)

section Rules

variable {a b : Expr} {v w : Float}

theorem foldsTo_const (h : v.isFinite = true) : (const v).FoldsTo v :=
  ⟨v, rfl, fun _ => ⟨h, Double.sameNumber_refl v⟩⟩

theorem foldsTo_zero : zero.FoldsTo 0 := foldsTo_const (by decide +kernel)

theorem FoldsTo.congr (h : a.FoldsTo v) (hvw : Double.SameNumber v w) : a.FoldsTo w := by
  obtain ⟨c, hc, hfin⟩ := h
  exact ⟨c, hc, fun h => ⟨(hfin h).1, (hfin h).2.trans hvw⟩⟩

theorem FoldsTo.neg (h : a.FoldsTo v) : (neg a).FoldsTo (-v) := by
  obtain ⟨c, hc, hfin⟩ := h
  refine ⟨-c, ?_, fun h => ?_⟩
  · rw [simplifyWith, hc]
    rfl
  · obtain ⟨hc, hv⟩ := hfin h
    exact ⟨(Double.isFinite_neg c).trans hc, hv.neg⟩

theorem foldsTo_binary {op : BinOp} {x y : Float} (ha : simplifyWith .double a = const x)
    (hb : simplifyWith .double b = const y) (hsettled : settled op x y = false)
    (hfold : simplifyBinary .double op (const x) (const y) =
      const (Arithmetic.double.combine op x y))
    (hsame : a.FiniteFoldings → b.FiniteFoldings →
      (Arithmetic.double.combine op x y).isFinite = true →
      Double.SameNumber (Arithmetic.double.combine op x y) v) :
    (binary op a b).FoldsTo v := by
  refine ⟨Arithmetic.double.combine op x y, ?_, fun h => ?_⟩
  · rw [simplifyWith, ha, hb, hfold]
  · rw [finiteFoldings_binary, ha, hb, operatorFolding, hsettled] at h
    obtain ⟨hfa, hfb, hop⟩ := h
    have hfin : (Arithmetic.double.combine op x y).isFinite = true := hop (.combine op x y) (by simp)
    exact ⟨hfin, hsame hfa hfb hfin⟩

theorem FoldsTo.add (ha : a.FoldsTo v) (hb : b.FoldsTo w) : (add a b).FoldsTo (v + w) := by
  obtain ⟨x, hx, hv⟩ := ha
  obtain ⟨y, hy, hw⟩ := hb
  exact foldsTo_binary hx hy rfl rfl fun ha hb _ => (hv ha).2.add (hw hb).2

theorem FoldsTo.sub (ha : a.FoldsTo v) (hb : b.FoldsTo w) : (sub a b).FoldsTo (v - w) := by
  obtain ⟨x, hx, hv⟩ := ha
  obtain ⟨y, hy, hw⟩ := hb
  exact foldsTo_binary hx hy rfl rfl fun ha hb _ => (hv ha).2.sub (hw hb).2

theorem FoldsTo.scale (hb : b.FoldsTo w) (c : Float) : (mul (const c) b).FoldsTo (c * w) := by
  -- Nothing is asked of `c`: what it makes of a finite number is finite or a folding that
  -- overflows.
  obtain ⟨y, hy, hw⟩ := hb
  exact foldsTo_binary rfl hy rfl rfl fun _ hb _ => (Double.sameNumber_refl c).mul (hw hb).2

theorem simplifyMul_zero (ha : a.isConst = false) : simplifyMul .double a zero = zero := by
  have h0 : ((0 : Float) == 0) = true := by decide +kernel
  cases a with
  | const x => cases ha
  | _ => simp [simplifyMul, zero, h0]

theorem foldsTo_mul_zero (a : Expr) : (mul a zero).FoldsTo 0 := by
  cases ha : simplifyWith .double a with
  | const x =>
    refine foldsTo_binary ha rfl rfl rfl fun _ _ hfin => Or.inl ?_
    exact (Double.Void.mul_right x Double.void_zero).beq_zero_of_isFinite hfin
  | _ =>
    refine ⟨0, ?_, fun _ => ⟨by decide +kernel, Double.sameNumber_refl 0⟩⟩
    show simplifyMul .double (simplifyWith .double a) zero = zero
    rw [ha, simplifyMul_zero rfl]

end Rules

/-! ## Derivatives -/

theorem FoldsTo.deriv_scale {b : Expr} {x : String} {w : Float} (h : (deriv x b).FoldsTo w)
    (c : Float) : (deriv x (mul (const c) b)).FoldsTo (c * w) :=
  ((h.scale c).add (foldsTo_mul_zero b)).congr (Double.sameNumber_add_zero (c * w))

theorem Affine.foldsTo_deriv {e : Expr} (h : e.Affine) (x : String) :
    (deriv x e).FoldsTo (coefficient x e) := by
  induction h with
  | const c => exact foldsTo_zero
  | var y =>
    rw [deriv, coefficient]
    split_ifs
    · exact foldsTo_const (by decide +kernel)
    · exact foldsTo_zero
  | neg _ ih => exact ih.neg
  | add _ _ iha ihb => exact iha.add ihb
  | sub _ _ iha ihb => exact iha.sub ihb
  | scaleLeft c _ ih => exact ih.deriv_scale c
  | @scaleRight a c _ ih =>
    cases ha : a.isConst with
    | true =>
      -- of two constants the first is the factor
      cases a with
      | const d => exact (show (deriv x (.const c)).FoldsTo 0 from foldsTo_zero).deriv_scale d
      | _ => cases ha
    | false =>
      rw [coefficient_mul_const ha]
      exact ((foldsTo_mul_zero a).add (ih.scale c)).congr (Double.sameNumber_zero_add _)

theorem Affine.exists_slope {e : Expr} (h : e.Affine) (x : String) :
    ∃ c, e.slope x = .ok (.const c) ∧ ((deriv x e).FiniteFoldings →
      c.isFinite = true ∧ Double.SameNumber c (coefficient x e)) := by
  obtain ⟨c, hc, hfin⟩ := h.foldsTo_deriv x
  refine ⟨c, ?_, hfin⟩
  rw [slope_of_finished x h.finished, hc]

end Expr

/-! ## Programs of constants -/

namespace Program

theorem depth_ofFloat (c : Float) : (Code.ofFloat c).depth ≤ maxDepth := by
  unfold Code.ofFloat
  split_ifs <;> simp [Code.depth, maxDepth]

theorem compile_constants (cs : List Float) (ps : List String) :
    compile (cs.map .const) ps = .ok ⟨cs.map Code.ofFloat⟩ := by
  have hemit : (cs.map .const).mapM (Expr.emit ps) = .ok (cs.map Code.ofFloat) := by
    rw [mapM_eq_ok_iff, List.forall₂_map_left_iff, List.forall₂_map_right_iff, List.forall₂_same]
    exact fun _ _ => rfl
  unfold compile compileWith
  rw [hemit]
  refine check_eq_ok (fun c hc => ?_) fun c hc => ?_
  · obtain ⟨x, -, rfl⟩ := List.mem_map.mp hc
    exact depth_ofFloat x
  · obtain ⟨x, -, rfl⟩ := List.mem_map.mp hc
    exact readable_ofFloat x

theorem call_constants {A : Arithmetic Float} (hA : ∀ x, A.neg x = -x) (cs : List Float)
    (a : NdArray Float) : call A ⟨cs.map Code.ofFloat⟩ a = .ok cs := by
  have hscalar : Interp.Negates (.scalar A id) := fun x _ => (hA x).symm
  have harray : Interp.Negates (NdArray.interp A id) := by
    intro x _
    show NdArray.scalar (-x) = NdArray.map A.neg (.scalar x)
    rw [← hA]
    rfl
  unfold call
  split
  · unfold runRows
    rw [mapM_eq_ok_iff, List.forall₂_map_left_iff, List.forall₂_same]
    intro c _
    rw [run_ofFloat harray]
    rfl
  · unfold runIn runWith
    rw [mapM_eq_ok_iff, List.forall₂_map_left_iff, List.forall₂_same]
    exact fun c _ => run_ofFloat hscalar c _

end Program

/-! ## Jacobians of constants -/

section Constant

variable {eqs : List Expr} {ps : List String}

theorem exists_constant_jacobian {entries : List Partial}
    (hentries : Jacobian.nonzero eqs ps = .ok entries)
    (hconst : ∀ p ∈ entries, ∃ c, p.expr = .const c) :
    ∃ j data, Jacobian.compile eqs ps = .ok j ∧
      (∀ s values, List.Forall₂ (fun p x => valueAt s ps values p.expr = .ok x) j.entries data) ∧
      ∀ s : Settings, s.callFault? = none → ∀ args a, (Value.list args).toArray = .ok a →
        CompiledJacobian.call ⟨j, s⟩ args = .ok (j.fill data) := by
  choose! f hf using hconst
  have hsorted : ∀ p ∈ Jacobian.columnMajor entries, p.expr = .const (f p) :=
    fun p hp => hf p (List.mem_mergeSort.mp hp)
  have hvalues : ∀ s values, List.Forall₂ (fun p x => valueAt s ps values p.expr = .ok x)
      (Jacobian.columnMajor entries) ((Jacobian.columnMajor entries).map f) := by
    intro s values
    rw [List.forall₂_map_right_iff, List.forall₂_same]
    intro p hp
    rw [hsorted p hp]
    rfl
  have hexprs : (Jacobian.columnMajor entries).map Partial.expr =
      ((Jacobian.columnMajor entries).map f).map .const := by
    rw [List.map_map]
    exact List.map_congr_left hsorted
  have hcompile : Jacobian.compile eqs ps = Jacobian.assemble eqs.length ps entries := by
    rw [Jacobian.compile, hentries]
    rfl
  rw [hcompile, Jacobian.assemble, hexprs, Program.compile_constants]
  cases hempty : (Jacobian.columnMajor entries).isEmpty with
  | true =>
    refine ⟨_, _, rfl, hvalues, fun s _ args a ha => ?_⟩
    unfold CompiledJacobian.call
    rw [ha, List.isEmpty_iff.mp hempty]
    rfl
  | false =>
    refine ⟨_, _, rfl, hvalues, fun s hs args a ha => ?_⟩
    unfold CompiledJacobian.call
    rw [ha]
    show (do s.checkCall; return Jacobian.fill _ (← Program.call s.arithmetic ⟨_⟩ a)) = _
    rw [checkCall_of_callFault? hs, Program.call_constants (arithmetic_neg s)]
    rfl

variable {j : Jacobian} {data : List Float} {s : Settings} {values : List Float} {r k : Nat}
  {e : Expr} {x : String} {c v : Float}

theorem mem_column_of_constant (hj : Jacobian.compile eqs ps = .ok j)
    (hdata : List.Forall₂ (fun p x => valueAt s ps values p.expr = .ok x) j.entries data)
    (he : eqs[r]? = some e) (hx : ps[k]? = some x) (hd : e.slope x = .ok (.const c))
    (hsame : Double.SameNumber c v) {y : Float} :
    (r, y) ∈ (j.fill data).column k ↔ (v == 0) = false ∧ y = v := by
  rw [mem_column_iff hj hdata he hx hd]
  constructor
  · rintro ⟨h0, hy⟩
    obtain rfl : c = v := hsame.eq h0
    exact ⟨h0, (Except.ok.inj hy).symm⟩
  · rintro ⟨h0, rfl⟩
    obtain rfl : y = c := hsame.symm.eq h0
    exact ⟨h0, rfl⟩

theorem exists_dense_of_constant (hj : Jacobian.compile eqs ps = .ok j)
    (hdata : List.Forall₂ (fun p x => valueAt s ps values p.expr = .ok x) j.entries data)
    (he : eqs[r]? = some e) (hx : ps[k]? = some x) (hd : e.slope x = .ok (.const c))
    (hsame : Double.SameNumber c v) :
    ∃ row y, (j.fill data).dense[r]? = some row ∧ row[k]? = some y ∧ Double.SameNumber y v := by
  obtain ⟨-, -, hrows, hcols, -, -⟩ := Jacobian.exists_of_compile hj
  have hr : r < j.rows := hrows ▸ (List.getElem?_eq_some_iff.mp he).1
  have hk : k < j.cols := hcols ▸ (List.getElem?_eq_some_iff.mp hx).1
  obtain ⟨row, hrow, hget⟩ := (j.fill data).exists_dense hr hk
  obtain ⟨c', hc', hentry, -⟩ := exists_entry hj hdata he hx hd
  obtain rfl : c = c' := Except.ok.inj hc'
  exact ⟨row, _, hrow, hget, hentry.trans hsame⟩

end Constant

/-- The derivatives of an affine expression simplify to its coefficients, up to overflow. Affine
equations have a Jacobian, and it is one matrix for all points that stores the coefficients that are
not zero. -/
theorem jacobian_of_affine_system :
    (∀ e : Expr, e.Affine → ∀ x, ∃ c, e.slope x = .ok (.const c) ∧
      ((e.deriv x).FiniteFoldings → (c == e.coefficient x) = true)) ∧
    ∀ (eqs : List Expr) (ps : List String) (s : Settings), (∀ e ∈ eqs, e.Affine) →
      s.callFault? = none →
      ∃ j m, CompiledJacobian.ofEquations (eqs.map .expr) (textValues ps) s = .ok j ∧
        (∀ args a, (Value.list args).toArray = .ok a → j.call args = .ok m) ∧
        m.rows = eqs.length ∧ m.cols = ps.length ∧ m.WellFormed ∧
        ∀ r k e x, eqs[r]? = some e → ps[k]? = some x → (e.deriv x).FiniteFoldings →
          (∀ y, (r, y) ∈ m.column k ↔ (e.coefficient x == 0) = false ∧ y = e.coefficient x) ∧
          ∃ row y, m.dense[r]? = some row ∧ row[k]? = some y ∧ (y == e.coefficient x) = true := by
  constructor
  · intro e he x
    obtain ⟨c, hc, hfin⟩ := he.exists_slope x
    exact ⟨c, hc, fun h => (hfin h).2.beq (hfin h).1⟩
  · intro eqs ps s haffine hs
    obtain ⟨entries, hentries⟩ := exists_nonzero (fun e he => (haffine e he).finished) ps
    have hconst : ∀ p ∈ entries, ∃ c, p.expr = .const c := by
      intro p hp
      obtain ⟨-, e, x, he, -, hd⟩ := (Jacobian.mem_nonzero hentries).mp hp
      obtain ⟨c, hc, -⟩ := (haffine e (List.mem_of_getElem? he)).exists_slope x
      exact ⟨c, Except.ok.inj (hd.symm.trans hc)⟩
    obtain ⟨j, data, hj, hvalues, hcall⟩ := exists_constant_jacobian hentries hconst
    have hdata := hvalues s []
    obtain ⟨-, -, hrows, hcols, -, -⟩ := Jacobian.exists_of_compile hj
    refine ⟨⟨j, s⟩, j.fill data, ?_, hcall s hs, hrows, hcols,
      wellFormed_of_compile hj hdata.length_eq.symm, ?_⟩
    · rw [CompiledJacobian.ofEquations_eq, hj]
      rfl
    · intro r k e x he hx hfinite
      obtain ⟨c, hd, hfin⟩ := (haffine e (List.mem_of_getElem? he)).exists_slope x
      obtain ⟨hc, hsame⟩ := hfin hfinite
      obtain ⟨row, y, hrow, hget, hy⟩ := exists_dense_of_constant hj hdata he hx hd hsame
      refine ⟨fun y => mem_column_of_constant hj hdata he hx hd hsame, row, y, hrow, hget, ?_⟩
      exact hy.beq ((hsame.trans hy.symm).isFinite hc)

/-- The equations `2 * (x - y * 3) + 5` and `-y` at two points. One coefficient is not stored. -/
theorem jacobian_of_affine_system_nested :
    let e := Expr.add (.mul (.const 2) (.sub (.var "x") (.mul (.var "y") (.const 3)))) (.const 5)
    let e' := Expr.neg (.var "y")
    let s : Settings := {}
    e.Affine ∧ e'.Affine ∧ s.callFault? = none ∧ (e.deriv "y").FiniteFoldings ∧
      (e'.deriv "x").FiniteFoldings ∧
      (∃ c, e.slope "y" = .ok (.const c) ∧ (c == -6) = true) ∧
      ∃ j m, CompiledJacobian.ofEquations [.expr e, .expr e'] (textValues ["x", "y"]) s = .ok j ∧
        j.call (numberValues [1, 2]) = .ok m ∧ j.call (numberValues [7, -4]) = .ok m ∧
        (0, -6) ∈ m.column 1 ∧ ∀ y, (1, y) ∉ m.column 0 := by
  intro e e' s
  have he : e.Affine := .add (.scaleLeft 2 (.sub (.var "x") (.scaleRight 3 (.var "y")))) (.const 5)
  have he' : e'.Affine := .neg (.var "y")
  have hfin : (e.deriv "y").FiniteFoldings := by decide +kernel
  have hfin' : (e'.deriv "x").FiniteFoldings := by decide +kernel
  have haffine : ∀ d ∈ [e, e'], d.Affine := by simp [he, he']
  have hcoefficient : e.coefficient "y" = -6 := by decide +kernel
  obtain ⟨c, hslope, hc⟩ := jacobian_of_affine_system.1 e he "y"
  obtain ⟨j, m, hj, hcall, -, -, -, hplaces⟩ :=
    jacobian_of_affine_system.2 [e, e'] ["x", "y"] s haffine rfl
  have hstored := (hplaces 0 1 e "y" rfl rfl hfin).1
  have habsent := (hplaces 1 0 e' "x" rfl rfl hfin').1
  rw [hcoefficient] at hstored hc
  refine ⟨he, he', rfl, hfin, hfin', ⟨c, hslope, hc hfin⟩, j, m, hj,
    hcall _ _ (toArray_numberValues _), hcall _ _ (toArray_numberValues _),
    (hstored (-6)).mpr ⟨by decide +kernel, rfl⟩, ?_⟩
  intro y hy
  exact absurd ((habsent y).mp hy).1 (by decide +kernel)

end Nabla
