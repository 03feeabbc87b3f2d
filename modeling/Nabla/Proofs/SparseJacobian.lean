import Nabla.Proofs.CompiledEvaluation
import Nabla.Proofs.SparseLayout
import Nabla.Proofs.Vocabulary

/-!
# The sparse Jacobian is the dense one

The matrix that a compiled Jacobian gives stores exactly the partial derivatives that do not simplify
to zero, each with its value at the point. Written out in full it holds every partial derivative.
-/

namespace Nabla

variable {ps : List String} {eqs : List Expr}

/-! ## The entries -/

theorem simplifyObstacle_of_slope {e d : Expr} {name : String} (h : e.slope name = .ok d) :
    d.simplifyObstacle = none := by
  obtain ⟨e', -, hd⟩ := bind_eq_ok_iff.mp h
  unfold Expr.simplify at hd
  split at hd
  · cases hd
  · rename_i hnone
    cases hd
    exact Expr.over_any_iff.mp (Expr.over_simplifyWith .double (Expr.over_any_iff.mpr hnone))

namespace Jacobian

theorem keep?_eq_some_iff {row col : Nat} {d : Expr} {p : Partial} :
    keep? row col d = some p ↔ d.isZero = false ∧ p = ⟨row, col, d⟩ := by
  unfold keep?
  split_ifs with h
  · simp [h]
  · rw [Bool.not_eq_true] at h
    rw [Option.some.injEq]
    exact ⟨fun hp => ⟨h, hp.symm⟩, fun hp => hp.2.symm⟩

theorem mem_rowEntries {row : Nat} {eq : Expr} {es : List Partial}
    (h : rowEntries Expr.slope ps row eq = .ok es) {p : Partial} :
    p ∈ es ↔ p.row = row ∧ p.expr.isZero = false ∧
      ∃ name, ps[p.col]? = some name ∧ eq.slope name = .ok p.expr := by
  obtain ⟨ds, hds, hes⟩ := bind_eq_ok_iff.mp h
  cases hes
  rw [← getElem?_mapM hds, List.mem_filterMap]
  constructor
  · rintro ⟨o, ho, hp⟩
    obtain ⟨i, hi, rfl⟩ := List.mem_mapIdx.mp ho
    obtain ⟨hz, rfl⟩ := keep?_eq_some_iff.mp hp
    exact ⟨rfl, hz, List.getElem?_eq_getElem hi⟩
  · rintro ⟨hrow, hz, hd⟩
    obtain ⟨hi, hd⟩ := List.getElem?_eq_some_iff.mp hd
    refine ⟨some p, List.mem_mapIdx.mpr ⟨p.col, hi, ?_⟩, rfl⟩
    rw [keep?_eq_some_iff, hd]
    exact ⟨hz, by cases p; cases hrow; rfl⟩

theorem pairwise_rowEntries {row : Nat} {eq : Expr} {es : List Partial}
    (h : rowEntries Expr.slope ps row eq = .ok es) : es.Pairwise fun a b => a.col < b.col := by
  obtain ⟨ds, -, hes⟩ := bind_eq_ok_iff.mp h
  cases hes
  rw [List.pairwise_filterMap, List.pairwise_iff_getElem]
  intro i j hi hj hij a ha b hb
  rw [List.getElem_mapIdx] at ha hb
  obtain ⟨-, rfl⟩ := keep?_eq_some_iff.mp ha
  obtain ⟨-, rfl⟩ := keep?_eq_some_iff.mp hb
  exact hij

theorem getElem?_rows {rows : List (List Partial)}
    (h : (eqs.zipIdx).mapM (fun (eq, row) => rowEntries Expr.slope ps row eq) = .ok rows) {k : Nat}
    {es : List Partial} :
    rows[k]? = some es ↔ ∃ eq, eqs[k]? = some eq ∧ rowEntries Expr.slope ps k eq = .ok es := by
  rw [getElem?_mapM h]
  constructor
  · rintro ⟨⟨eq, row⟩, hget, hes⟩
    rw [List.getElem?_zipIdx, Option.map_eq_some_iff] at hget
    obtain ⟨eq', heq, hpair⟩ := hget
    obtain ⟨rfl, rfl⟩ := Prod.mk.inj hpair
    rw [Nat.zero_add] at hes
    exact ⟨eq', heq, hes⟩
  · rintro ⟨eq, heq, hes⟩
    refine ⟨(eq, k), ?_, hes⟩
    rw [List.getElem?_zipIdx, heq, Option.map_some, Nat.zero_add]

theorem exists_row {rows : List (List Partial)}
    (h : (eqs.zipIdx).mapM (fun (eq, row) => rowEntries Expr.slope ps row eq) = .ok rows) {k : Nat}
    {eq : Expr} (heq : eqs[k]? = some eq) :
    ∃ es, rows[k]? = some es ∧ rowEntries Expr.slope ps k eq = .ok es := by
  have hget : eqs.zipIdx[k]? = some (eq, k) := by
    rw [List.getElem?_zipIdx, heq, Option.map_some, Nat.zero_add]
  exact exists_getElem?_of_mapM h hget

theorem exists_slope {entries : List Partial} (h : nonzero eqs ps = .ok entries) {r k : Nat}
    {eq : Expr} {name : String} (heq : eqs[r]? = some eq) (hname : ps[k]? = some name) :
    ∃ d, eq.slope name = .ok d := by
  obtain ⟨rows, hrows, -⟩ := bind_eq_ok_iff.mp h
  obtain ⟨es, -, hrow⟩ := exists_row hrows heq
  obtain ⟨ds, hds, -⟩ := bind_eq_ok_iff.mp hrow
  obtain ⟨d, -, hd⟩ := exists_getElem?_of_mapM hds hname
  exact ⟨d, hd⟩

theorem mem_nonzero {entries : List Partial} (h : nonzero eqs ps = .ok entries) {p : Partial} :
    p ∈ entries ↔ p.expr.isZero = false ∧ ∃ eq name, eqs[p.row]? = some eq ∧
      ps[p.col]? = some name ∧ eq.slope name = .ok p.expr := by
  obtain ⟨rows, hrows, hentries⟩ := bind_eq_ok_iff.mp h
  cases hentries
  rw [List.mem_flatten]
  constructor
  · rintro ⟨es, hes, hp⟩
    obtain ⟨k, hk⟩ := List.mem_iff_getElem?.mp hes
    obtain ⟨eq, heq, hrow⟩ := (getElem?_rows hrows).mp hk
    obtain ⟨rfl, hz, name, hname, hd⟩ := (mem_rowEntries hrow).mp hp
    exact ⟨hz, eq, name, heq, hname, hd⟩
  · rintro ⟨hz, eq, name, heq, hname, hd⟩
    obtain ⟨es, hes, hrow⟩ := exists_row hrows heq
    refine ⟨es, List.mem_iff_getElem?.mpr ⟨p.row, hes⟩, ?_⟩
    exact (mem_rowEntries hrow).mpr ⟨rfl, hz, name, hname, hd⟩

theorem pairwise_nonzero {entries : List Partial} (h : nonzero eqs ps = .ok entries) :
    entries.Pairwise fun a b => ¬ (a.row = b.row ∧ a.col = b.col) := by
  obtain ⟨rows, hrows, hentries⟩ := bind_eq_ok_iff.mp h
  cases hentries
  rw [List.pairwise_flatten]
  constructor
  · intro es hes
    obtain ⟨k, hk⟩ := List.mem_iff_getElem?.mp hes
    obtain ⟨eq, -, hrow⟩ := (getElem?_rows hrows).mp hk
    exact (pairwise_rowEntries hrow).imp fun hlt hsame => by omega
  · rw [List.pairwise_iff_getElem]
    intro i j hi hj hij a ha b hb hsame
    obtain ⟨eq, -, hrow⟩ := (getElem?_rows hrows).mp (List.getElem?_eq_getElem hi)
    obtain ⟨eq', -, hrow'⟩ := (getElem?_rows hrows).mp (List.getElem?_eq_getElem hj)
    have hai := ((mem_rowEntries hrow).mp ha).1
    have hbj := ((mem_rowEntries hrow').mp hb).1
    omega

/-! ## The compiled Jacobian -/

theorem exists_of_compile {j : Jacobian} (h : compile eqs ps = .ok j) :
    ∃ entries, nonzero eqs ps = .ok entries ∧ j.rows = eqs.length ∧ j.cols = ps.length ∧
      j.entries = columnMajor entries ∧
      (j.program = none ∧ j.entries = [] ∨
        ∃ p, j.program = some p ∧ Program.compile (j.entries.map Partial.expr) ps = .ok p) := by
  obtain ⟨entries, hentries, h⟩ := bind_eq_ok_iff.mp h
  unfold assemble at h
  dsimp only at h
  split_ifs at h with hempty
  · cases h
    exact ⟨entries, hentries, rfl, rfl, rfl, Or.inl ⟨rfl, List.isEmpty_iff.mp hempty⟩⟩
  · obtain ⟨program, hprogram, h⟩ := bind_eq_ok_iff.mp h
    cases h
    obtain ⟨p, hp, rfl⟩ := map_eq_ok_iff.mp hprogram
    exact ⟨entries, hentries, rfl, rfl, rfl, Or.inr ⟨p, rfl, hp⟩⟩

end Jacobian

theorem partials_eq (eqs : List Expr) (ps : List String) :
    Value.partials (eqs.map .expr) (textValues ps) = Jacobian.nonzero eqs ps := by
  have hnames : (textValues ps).map (fun p => p.target?.getD (Value.unusedName (eqs.map .expr))) =
      ps := by
    rw [textValues, List.map_map]
    exact List.map_id ps
  unfold Value.partials Jacobian.nonzero Jacobian.nonzeroWith
  rw [hnames, List.zipIdx_map, List.mapM_map]
  rfl

theorem CompiledJacobian.ofEquations_eq (eqs : List Expr) (ps : List String) (s : Settings) :
    ofEquations (eqs.map .expr) (textValues ps) s =
      (Jacobian.compile eqs ps).map fun j => ⟨j, s⟩ := by
  unfold ofEquations Jacobian.compile
  rw [partials_eq, checkKeys_textValues, places_textValues, List.length_map]
  cases Jacobian.nonzero eqs ps with
  | error err => rfl
  | ok entries =>
    show (do
      unless entries.isEmpty do Except.ok ()
      return (⟨← Jacobian.assemble eqs.length ps entries, s⟩ : CompiledJacobian)) =
        (Jacobian.assemble eqs.length ps entries).map _
    cases Jacobian.assemble eqs.length ps entries <;> cases entries.isEmpty <;> rfl

/-- The value of an expression at a point, in the arithmetic of the settings. -/
def valueAt (s : Settings) (ps : List String) (values : List Float) (e : Expr) :
    Except Error Float :=
  e.evalWith (.scalar s.arithmetic id) (Table.ofPairs (ps.zip values)).find?

theorem arithmetic_neg (s : Settings) (x : Float) : s.arithmetic.neg x = -x := by
  unfold Settings.arithmetic
  split_ifs <;> rfl

theorem exists_data {s : Settings} (hs : s.callFault? = none) {j : Jacobian}
    (hj : Jacobian.compile eqs ps = .ok j) {values : List Float} (hv : ps.length ≤ values.length) :
    ∃ data, CompiledJacobian.call ⟨j, s⟩ (numberValues values) = .ok (j.fill data) ∧
      List.Forall₂ (fun p x => valueAt s ps values p.expr = .ok x) j.entries data := by
  obtain ⟨entries, hentries, -, -, hsorted, hprogram⟩ := Jacobian.exists_of_compile hj
  unfold CompiledJacobian.call
  rw [toArray_numberValues]
  rcases hprogram with ⟨hnone, hnil⟩ | ⟨p, hsome, hp⟩
  · refine ⟨[], ?_, hnil ▸ .nil⟩
    simp only [hnone]
    rfl
  · have hfin : ∀ e ∈ j.entries.map Partial.expr, e.obstacle = none := by
      intro e he
      obtain ⟨c, -, hc⟩ := exists_right_of_mem (Program.forall₂_emit hp) he
      obtain ⟨p, hmem, rfl⟩ := List.mem_map.mp he
      rw [hsorted, Jacobian.columnMajor, List.mem_mergeSort, Jacobian.mem_nonzero hentries] at hmem
      obtain ⟨-, eq, name, -, -, hd⟩ := hmem
      exact finished_of_emit (simplifyObstacle_of_slope hd) hc
    have hcomputes := Program.forall₂_computes (arithmetic_neg s) hfin hp values
    obtain ⟨out, hout, hf⟩ := Program.run_of_inReach hcomputes
      fun e _ name _ i hlast => hlast.lt.trans_le hv
    refine ⟨out, ?_, List.forall₂_map_left_iff.mp hf⟩
    simp only [hsome]
    show (do s.checkCall; return j.fill (← p.call s.arithmetic _)) = _
    rw [checkCall_of_callFault? hs, Program.call_numbers, hout]
    rfl

/-! ## The stored entries -/

theorem exists_mem_zip {α β : Type} {xs : List α} {ys : List β} (hlen : ys.length = xs.length)
    {x : α} (hx : x ∈ xs) : ∃ y, (x, y) ∈ xs.zip ys := by
  have hfst : (xs.zip ys).map Prod.fst = xs := List.map_fst_zip (by omega)
  rw [← hfst] at hx
  obtain ⟨⟨x', y⟩, hp, rfl⟩ := List.mem_map.mp hx
  exact ⟨y, hp⟩

section Stored

variable {j : Jacobian} {s : Settings} {values data : List Float}

theorem inColumns_of_compile (hj : Jacobian.compile eqs ps = .ok j) :
    Jacobian.InColumns j.entries := by
  obtain ⟨entries, hentries, -, -, hsorted, -⟩ := Jacobian.exists_of_compile hj
  rw [hsorted]
  exact Jacobian.inColumns_columnMajor (Jacobian.pairwise_nonzero hentries)

theorem mem_entries (hj : Jacobian.compile eqs ps = .ok j) {p : Partial} :
    p ∈ j.entries ↔ p.expr.isZero = false ∧ ∃ eq name, eqs[p.row]? = some eq ∧
      ps[p.col]? = some name ∧ eq.slope name = .ok p.expr := by
  obtain ⟨entries, hentries, -, -, hsorted, -⟩ := Jacobian.exists_of_compile hj
  rw [hsorted, Jacobian.columnMajor, List.mem_mergeSort, Jacobian.mem_nonzero hentries]

theorem wellFormed_of_compile (hj : Jacobian.compile eqs ps = .ok j)
    (hlen : data.length = j.entries.length) : (j.fill data).WellFormed := by
  obtain ⟨-, -, hrows, hcols, -, -⟩ := Jacobian.exists_of_compile hj
  refine Jacobian.wellFormed_fill (inColumns_of_compile hj) hlen (fun p hp => ?_) fun p hp => ?_
  · obtain ⟨-, -, name, -, hname, -⟩ := (mem_entries hj).mp hp
    rw [hcols]
    exact (List.getElem?_eq_some_iff.mp hname).1
  · obtain ⟨-, eq, -, heq, -, -⟩ := (mem_entries hj).mp hp
    rw [hrows]
    exact (List.getElem?_eq_some_iff.mp heq).1

theorem mem_column_iff (hj : Jacobian.compile eqs ps = .ok j)
    (hdata : List.Forall₂ (fun p x => valueAt s ps values p.expr = .ok x) j.entries data) {r k : Nat}
    {e d : Expr} {name : String} (he : eqs[r]? = some e) (hname : ps[k]? = some name)
    (hd : e.slope name = .ok d) {x : Float} :
    (r, x) ∈ (j.fill data).column k ↔ d.isZero = false ∧ valueAt s ps values d = .ok x := by
  obtain ⟨-, -, -, hcols, -, -⟩ := Jacobian.exists_of_compile hj
  have hk : k < j.cols := hcols ▸ (List.getElem?_eq_some_iff.mp hname).1
  have hlen := hdata.length_eq.symm
  rw [Jacobian.mem_column_fill (inColumns_of_compile hj) hlen hk]
  constructor
  · rintro ⟨p, hp, rfl, rfl⟩
    -- the place determines the equation and the parameter, and so the derivative
    obtain ⟨hz, e', name', he', hname', hd'⟩ := (mem_entries hj).mp (List.of_mem_zip hp).1
    obtain rfl : e = e' := Option.some.inj (he.symm.trans he')
    obtain rfl : name = name' := Option.some.inj (hname.symm.trans hname')
    obtain rfl : d = p.expr := Except.ok.inj (hd.symm.trans hd')
    exact ⟨hz, List.forall₂_zip hdata hp⟩
  · rintro ⟨hz, hx⟩
    have hmem : ⟨r, k, d⟩ ∈ j.entries := (mem_entries hj).mpr ⟨hz, e, name, he, hname, hd⟩
    obtain ⟨y, hy⟩ := exists_mem_zip hlen hmem
    obtain rfl : x = y := Except.ok.inj (hx.symm.trans (List.forall₂_zip hdata hy))
    exact ⟨_, hy, rfl, rfl⟩

theorem valueAt_of_isZero {d : Expr} (h : d.isZero = true) :
    ∃ v, valueAt s ps values d = .ok v ∧ (v == 0) = true := by
  cases d <;> simp only [Expr.isZero, Bool.false_eq_true] at h
  exact ⟨_, rfl, h⟩

theorem exists_entry (hj : Jacobian.compile eqs ps = .ok j)
    (hdata : List.Forall₂ (fun p x => valueAt s ps values p.expr = .ok x) j.entries data) {r k : Nat}
    {e d : Expr} {name : String} (he : eqs[r]? = some e) (hname : ps[k]? = some name)
    (hd : e.slope name = .ok d) :
    ∃ v, valueAt s ps values d = .ok v ∧ Double.SameNumber ((j.fill data).entry r k) v ∧
      (d.isZero = true → (j.fill data).entry r k = 0) := by
  obtain ⟨-, -, -, hcols, -, -⟩ := Jacobian.exists_of_compile hj
  have hk : k < j.cols := hcols ▸ (List.getElem?_eq_some_iff.mp hname).1
  have hlen := hdata.length_eq.symm
  cases hz : d.isZero with
  | true =>
    obtain ⟨v, hv, h0⟩ := valueAt_of_isZero hz
    have hentry : (j.fill data).entry r k = 0 := by
      refine SparseMatrix.entry_of_not_mem fun x hx => ?_
      rw [mem_column_iff hj hdata he hname hd, hz] at hx
      exact nomatch hx.1
    refine ⟨v, hv, ?_, fun _ => hentry⟩
    rw [hentry]
    exact Double.SameNumber.symm (Or.inl h0)
  | false =>
    have hmem : ⟨r, k, d⟩ ∈ j.entries := (mem_entries hj).mpr ⟨hz, e, name, he, hname, hd⟩
    obtain ⟨v, -, hv⟩ := exists_right_of_mem hdata hmem
    have hstored := (mem_column_iff hj hdata he hname hd).mpr ⟨hz, hv⟩
    refine ⟨v, hv, ?_, fun h => nomatch h⟩
    rw [SparseMatrix.entry_of_mem (wellFormed_of_compile hj hlen) hk hstored]
    exact Double.sameNumber_zero_add v

end Stored

theorem eval_of_valueAt {s : Settings} (hs : s.accelerate.truthy = false) {values : List Float}
    {d : Expr} {v : Float} (h : valueAt s ps values d = .ok v) :
    d.eval (bindings ps values) = .ok (.scalar v) := by
  rw [valueAt, arithmetic_of_plain hs] at h
  rw [eval_bindings, h]
  rfl

theorem exists_jacobian_of_ofEquations {s : Settings} {c : CompiledJacobian}
    (hc : CompiledJacobian.ofEquations (eqs.map .expr) (textValues ps) s = .ok c) :
    ∃ j, Jacobian.compile eqs ps = .ok j ∧ c = ⟨j, s⟩ := by
  rw [CompiledJacobian.ofEquations_eq, map_eq_ok_iff] at hc
  obtain ⟨j, hj, rfl⟩ := hc
  exact ⟨j, hj, rfl⟩

/-- The matrix of a compiled Jacobian is laid out column by column, stores at each place the value of
the partial derivative unless that simplifies to zero, and written out in full has the value of every
partial derivative. -/
theorem sparse_jacobian_is_dense {s : Settings} (hs : s.callFault? = none) {c : CompiledJacobian}
    (hc : CompiledJacobian.ofEquations (eqs.map .expr) (textValues ps) s = .ok c)
    (values : List Float) (hv : ps.length ≤ values.length) :
    ∃ m, c.call (numberValues values) = .ok m ∧ m.rows = eqs.length ∧ m.cols = ps.length ∧
      m.WellFormed ∧
      ∀ r k e name, eqs[r]? = some e → ps[k]? = some name →
        ∃ d v row y, e.slope name = .ok d ∧ valueAt s ps values d = .ok v ∧
          (s.accelerate.truthy = false → d.eval (bindings ps values) = .ok (.scalar v)) ∧
          ((∃ x, (r, x) ∈ m.column k) ↔ d.isZero = false) ∧ (∀ x, (r, x) ∈ m.column k → x = v) ∧
          m.dense[r]? = some row ∧ row[k]? = some y ∧ Double.SameNumber y v ∧
          (d.isZero = true → y = 0) := by
  obtain ⟨j, hj, rfl⟩ := exists_jacobian_of_ofEquations hc
  obtain ⟨entries, hentries, hrows, hcols, -, -⟩ := Jacobian.exists_of_compile hj
  obtain ⟨data, hcall, hdata⟩ := exists_data hs hj hv
  have hwf := wellFormed_of_compile hj hdata.length_eq.symm
  refine ⟨j.fill data, hcall, hrows, hcols, hwf, fun r k e name he hname => ?_⟩
  obtain ⟨d, hd⟩ := Jacobian.exists_slope hentries he hname
  obtain ⟨v, hv, hsame, hzero⟩ := exists_entry hj hdata he hname hd
  have hr : r < j.rows := hrows ▸ (List.getElem?_eq_some_iff.mp he).1
  have hk : k < j.cols := hcols ▸ (List.getElem?_eq_some_iff.mp hname).1
  have hcolumn : ∀ x, (r, x) ∈ (j.fill data).column k ↔ _ :=
    fun x => mem_column_iff hj hdata he hname hd
  obtain ⟨row, hrow, hget⟩ := (j.fill data).exists_dense hr hk
  refine ⟨d, v, row, _, hd, hv, fun h => eval_of_valueAt h hv, ?_, ?_, hrow, hget, hsame, hzero⟩
  · constructor
    · rintro ⟨x, hx⟩
      exact ((hcolumn x).mp hx).1
    · intro hz
      exact ⟨v, (hcolumn v).mpr ⟨hz, hv⟩⟩
  · intro x hx
    exact Except.ok.inj (((hcolumn x).mp hx).2.symm.trans hv)

/-- A product and one of its factors. The entries have to be sorted, and one of them is left out. -/
theorem sparse_jacobian_is_dense_product :
    let s : Settings := {}
    let ps := ["x", "y"]
    let eqs := [Expr.mul (.var "x") (.var "y"), .var "x"]
    s.callFault? = none ∧
    ∃ c, CompiledJacobian.ofEquations (eqs.map .expr) (textValues ps) s = .ok c ∧
      ∃ m, c.call (numberValues [2, 3]) = .ok m ∧ m.rows = 2 ∧ m.cols = 2 ∧ m.WellFormed ∧
        ∀ x, (1, x) ∉ m.column 1 := by
  intro s ps eqs
  have hs : s.callFault? = none := rfl
  have hnonzero : Jacobian.nonzero eqs ps =
      .ok [⟨0, 0, .var "y"⟩, ⟨0, 1, .var "x"⟩, ⟨1, 0, .one⟩] := rfl
  have hsorted : Jacobian.columnMajor [⟨0, 0, .var "y"⟩, ⟨0, 1, .var "x"⟩, ⟨1, 0, .one⟩] =
      [⟨0, 0, .var "y"⟩, ⟨1, 0, .one⟩, ⟨0, 1, .var "x"⟩] := by
    simp [Jacobian.columnMajor, Jacobian.before, List.mergeSort,
      List.MergeSort.Internal.splitInTwo]
  have hc : CompiledJacobian.ofEquations (eqs.map .expr) (textValues ps) s =
      .ok ⟨⟨2, 2, [⟨0, 0, .var "y"⟩, ⟨1, 0, .one⟩, ⟨0, 1, .var "x"⟩],
        some ⟨[.slot 1, .number 1, .slot 0]⟩⟩, s⟩ := by
    rw [CompiledJacobian.ofEquations_eq, Jacobian.compile, hnonzero]
    show (Jacobian.assemble _ _ _).map _ = _
    rw [Jacobian.assemble, hsorted]
    rfl
  obtain ⟨m, hm, hrows, hcols, hwf, hplaces⟩ :=
    sparse_jacobian_is_dense hs hc [2, 3] (by decide)
  obtain ⟨d, v, row, y, hd, -, -, hstored, -⟩ := hplaces 1 1 (.var "x") "y" rfl rfl
  obtain rfl : Expr.zero = d := Except.ok.inj hd
  refine ⟨hs, _, hc, m, hm, hrows, hcols, hwf, fun x hx => ?_⟩
  exact absurd (hstored.mp ⟨x, hx⟩) (by decide +kernel)

end Nabla
