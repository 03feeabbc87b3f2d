import Nabla.Proofs.Double.Void
import Nabla.Proofs.SparseJacobian
import Nabla.Proofs.Vocabulary

/-!
# Which entries a Jacobian has

The derivative with respect to a variable that does not occur is made of products with zero. It
simplifies to zero unless a product with zero is undefined or a division by zero is left alone: such
a flaw stays in the tree, and it is the only reason why an entry may stand in the column of a
parameter that its equation does not mention.
-/

namespace Nabla

namespace Expr

/-! ## Flaws -/

/-- An undefined constant, or a division by zero. -/
def isFlaw : Expr → Bool
  | const x => x.isNaN
  | binary .div _ b => b.isZero
  | _ => false

/-- Some node, at whatever depth, is a flaw. -/
def Flawed (e : Expr) : Prop := ∃ place t, e.part? place = some t ∧ t.isFlaw = true

theorem flawed_of_isFlaw {e : Expr} (h : e.isFlaw = true) : e.Flawed := ⟨[], e, rfl, h⟩

theorem flawed_of_child {e c : Expr} (hc : c ∈ e.children) (h : c.Flawed) : e.Flawed := by
  obtain ⟨place, t, ht, hflaw⟩ := h
  obtain ⟨i, hi⟩ := List.mem_iff_getElem?.mp hc
  exact ⟨i :: place, t, by rw [part?, hi, Option.bind_some, ht], hflaw⟩

theorem flawed_binary_left {op : BinOp} {a b : Expr} (h : a.Flawed) : (binary op a b).Flawed :=
  flawed_of_child (by simp [children]) h

theorem flawed_binary_right {op : BinOp} {a b : Expr} (h : b.Flawed) : (binary op a b).Flawed :=
  flawed_of_child (by simp [children]) h

theorem flawed_const_of_isNaN {x : Float} (h : x.isNaN = true) : (const x).Flawed :=
  flawed_of_isFlaw h

/-- A constant that is zero or undefined, or a tree with a flaw. -/
def Vanishes : Expr → Prop
  | const x => Double.Void x
  | e => e.Flawed

theorem vanishes_of_flawed {e : Expr} (h : e.isConst = false) (hf : e.Flawed) : e.Vanishes := by
  cases e with
  | const x => cases h
  | _ => exact hf

theorem Vanishes.flawed {e : Expr} (h : e.Vanishes) (hc : e.isConst = false) : e.Flawed := by
  cases e with
  | const x => cases hc
  | _ => exact h

theorem Vanishes.isZero_or_flawed {e : Expr} (h : e.Vanishes) : e.isZero = true ∨ e.Flawed := by
  cases hc : e.isConst with
  | false => exact Or.inr (h.flawed hc)
  | true =>
    cases e with
    | const x =>
      rcases h with h0 | hn
      · exact Or.inl h0
      · exact Or.inr (flawed_const_of_isNaN hn)
    | _ => cases hc

theorem vanishes_zero : zero.Vanishes := Double.void_zero

/-! ## The rules -/

theorem vanishes_neg {a : Expr} (ha : a.Vanishes) : (simplifyNeg .double a).Vanishes := by
  unfold simplifyNeg
  split
  · exact Double.Void.neg ha
  · rename_i hc
    exact flawed_of_child (by simp [children]) (ha.flawed (isConst_eq_false hc))

theorem flawed_const_of_void {x : Float} (hx : Double.Void x) (h0 : ¬ (x == 0) = true) :
    (const x).Flawed :=
  flawed_const_of_isNaN (hx.resolve_left h0)

theorem vanishes_add {a b : Expr} (ha : a.Vanishes) (hb : b.Vanishes) :
    (simplifyAdd .double a b).Vanishes := by
  unfold simplifyAdd
  split
  · exact Double.Void.add ha hb
  · split_ifs with h0
    · exact hb
    · exact flawed_binary_left (flawed_const_of_void ha h0)
  · split_ifs with h0
    · exact ha
    · exact flawed_binary_right (flawed_const_of_void hb h0)
  · rename_i hc _ _
    exact flawed_binary_left (ha.flawed (isConst_eq_false hc))

theorem vanishes_sub {a b : Expr} (ha : a.Vanishes) (hb : b.Vanishes) :
    (simplifySub .double a b).Vanishes := by
  unfold simplifySub
  split
  · exact Double.Void.sub ha hb
  · rename_i hc
    split_ifs with h0
    · exact flawed_of_child (by simp [children]) (hb.flawed (isConst_eq_false hc))
    · exact flawed_binary_left (flawed_const_of_void ha h0)
  · split_ifs with h0
    · exact ha
    · exact flawed_binary_right (flawed_const_of_void hb h0)
  · rename_i hc _ _
    exact flawed_binary_left (ha.flawed (isConst_eq_false hc))

theorem vanishes_mul_right (a : Expr) {b : Expr} (hb : b.Vanishes) :
    (simplifyMul .double a b).Vanishes := by
  unfold simplifyMul
  split
  · exact Double.Void.mul_right _ hb
  · rename_i hc
    split_ifs with h0 h1
    · exact vanishes_zero
    · exact hb
    · exact flawed_binary_right (hb.flawed (isConst_eq_false hc))
  · split_ifs with h0 h1
    · exact vanishes_zero
    · rw [Double.Void.not_beq_one hb] at h1
      cases h1
    · exact flawed_binary_right (flawed_const_of_void hb h0)
  · rename_i hc _
    exact flawed_binary_right (hb.flawed (isConst_eq_false hc))

theorem vanishes_mul_left {a : Expr} (ha : a.Vanishes) (b : Expr) :
    (simplifyMul .double a b).Vanishes := by
  unfold simplifyMul
  split
  · exact Double.Void.mul_left ha _
  · split_ifs with h0 h1
    · exact vanishes_zero
    · rw [Double.Void.not_beq_one ha] at h1
      cases h1
    · exact flawed_binary_left (flawed_const_of_void ha h0)
  · rename_i hc
    split_ifs with h0 h1
    · exact vanishes_zero
    · exact ha
    · exact flawed_binary_left (ha.flawed (isConst_eq_false hc))
  · rename_i hc _ _
    exact flawed_binary_left (ha.flawed (isConst_eq_false hc))

theorem isZero_of_same {a b : Expr} (h : (a == b) = true) (ha : a.isZero = true) :
    b.isZero = true := by
  cases a <;> simp only [isZero, Bool.false_eq_true] at ha
  cases b with
  | const y => exact Double.beq_zero_of_beq h ha
  | _ => cases h

theorem isConst_of_same {a b : Expr} (h : (a == b) = true) : a.isConst = b.isConst := by
  cases a with
  | const x =>
    cases b with
    | const y => rfl
    | _ => cases h
  | _ =>
    cases b with
    | const y => cases h
    | _ => rfl

theorem vanishes_div {a b : Expr} (ha : a.Vanishes) (hab : a.isConst = false → (a == b) = false) :
    (simplifyDiv .double a b).Vanishes := by
  unfold simplifyDiv
  split_ifs with hb0 h ha0 hb1
  · exact flawed_of_isFlaw hb0
  · exfalso
    cases a with
    | const x =>
      rcases ha with ha0 | hn
      · exact hb0 (isZero_of_same h ha0)
      · cases b with
        | const y => exact absurd h (Bool.eq_false_iff.mp (Double.not_beq_of_isNaN hn y))
        | _ => cases h
    | _ => exact absurd h (Bool.eq_false_iff.mp (hab rfl))
  · exact vanishes_zero
  · exact ha
  · unfold foldOr
    split
    · exact Double.void_div_of_isNaN (ha.resolve_left ha0) _
    · refine flawed_binary_left ?_
      rcases ha.isZero_or_flawed with h0 | hf
      · exact absurd h0 ha0
      · exact hf

theorem simplifyMul_cases (a b : Expr) :
    (simplifyMul .double a b).isConst = true ∨ simplifyMul .double a b = mul a b ∨
      a.isOne = true ∧ simplifyMul .double a b = b ∨
      b.isOne = true ∧ simplifyMul .double a b = a := by
  unfold simplifyMul
  split
  · exact Or.inl rfl
  · split_ifs with h0 h1
    · exact Or.inl rfl
    · exact Or.inr (Or.inr (Or.inl ⟨h1, rfl⟩))
    · exact Or.inr (Or.inl rfl)
  · split_ifs with h0 h1
    · exact Or.inl rfl
    · exact Or.inr (Or.inr (Or.inr ⟨h1, rfl⟩))
    · exact Or.inr (Or.inl rfl)
  · exact Or.inr (Or.inl rfl)

theorem simplifySub_cases (a b : Expr) :
    (simplifySub .double a b).isConst = true ∨ simplifySub .double a b = neg b ∨
      simplifySub .double a b = sub a b ∨ simplifySub .double a b = a := by
  unfold simplifySub
  split
  · exact Or.inl rfl
  · split_ifs
    · exact Or.inr (Or.inl rfl)
    · exact Or.inr (Or.inr (Or.inl rfl))
  · split_ifs
    · exact Or.inr (Or.inr (Or.inr rfl))
    · exact Or.inr (Or.inr (Or.inl rfl))
  · exact Or.inr (Or.inr (Or.inl rfl))

theorem isOne_eq_false_of_vanishes {a : Expr} (h : a.Vanishes) : a.isOne = false := by
  cases a with
  | const x => exact Double.Void.not_beq_one h
  | _ => rfl

theorem isOne_two : two.isOne = false := by decide +kernel

theorem isZero_two : two.isZero = false := by decide +kernel

theorem square_cases (a : Expr) :
    (simplifyPow .double power a two).isConst = true ∨
      a.isOne = false ∧ simplifyPow .double power a two = power a two := by
  unfold simplifyPow
  simp only [isZero_two, isOne_two, Bool.or_false, Bool.false_eq_true, if_false]
  split_ifs with h0 h1
  · exact Or.inl rfl
  · exact Or.inl rfl
  · rcases foldOr_cases .double .pow power a two with ⟨-, x, hx⟩ | ⟨-, hx⟩
    · exact Or.inl (by rw [hx]; rfl)
    · exact Or.inr ⟨Bool.eq_false_iff.mpr h1, hx⟩

theorem vanishes_quotient {f g f' g' : Expr} (hf : f'.Vanishes) (hg : g'.Vanishes) :
    (simplifyDiv .double
      (simplifySub .double (simplifyMul .double g f') (simplifyMul .double f g'))
      (simplifyPow .double power g two)).Vanishes := by
  -- The dividend is never the square that it is divided by, so the quotient does not become one.
  refine vanishes_div (vanishes_sub (vanishes_mul_right g hf) (vanishes_mul_right f hg)) ?_
  intro hc
  rw [Bool.eq_false_iff]
  intro hsame
  rcases square_cases g with hconst | ⟨hone, hsquare⟩
  · rw [← isConst_of_same hsame, hc] at hconst
    cases hconst
  · rw [hsquare] at hsame
    rcases simplifySub_cases (simplifyMul .double g f') (simplifyMul .double f g') with
      h | h | h | h
    · rw [h] at hc
      cases hc
    · rw [h] at hsame
      cases hsame
    · rw [h] at hsame
      cases hsame
    · rw [h] at hsame hc
      rcases simplifyMul_cases g f' with h | h | ⟨h1, -⟩ | ⟨h1, -⟩
      · rw [h] at hc
        cases hc
      · rw [h] at hsame
        cases hsame
      · rw [hone] at h1
        cases h1
      · rw [isOne_eq_false_of_vanishes hf] at h1
        cases h1

/-! ## Equal trees have the same flaws -/

theorem forall₂_of_sameAll {es es' : List Expr} (h : sameAll es es' = true) :
    List.Forall₂ (fun a b => (a == b) = true) es es' := by
  induction es generalizing es' with
  | nil =>
    cases es' with
    | nil => exact .nil
    | cons e' es' => cases h
  | cons e es ih =>
    cases es' with
    | nil => cases h
    | cons e' es' =>
      obtain ⟨he, hes⟩ := (Bool.and_eq_true _ _).mp h
      exact .cons he (ih hes)

theorem children_of_same {e e' : Expr} (h : (e == e') = true) :
    List.Forall₂ (fun a b => (a == b) = true) e.children e'.children := by
  have h : same e e' = true := h
  cases e <;> cases e' <;>
    simp only [same, Bool.and_eq_true, Bool.false_eq_true, and_assoc] at h
  case const | var | datum | oddVar => exact .nil
  case neg => exact .cons h .nil
  case call => exact .cons h.2 .nil
  case binary => exact .cons h.2.1 (.cons h.2.2 .nil)
  case powCall | pair => exact .cons h.1 (.cons h.2 .nil)
  case unknown => exact .cons h.2.1 (forall₂_of_sameAll h.2.2)

theorem part?_of_same {place : List Nat} {e e' t : Expr} (h : (e == e') = true)
    (ht : e.part? place = some t) : ∃ t', e'.part? place = some t' ∧ (t == t') = true := by
  induction place generalizing e e' with
  | nil =>
    cases ht
    exact ⟨e', rfl, h⟩
  | cons i place ih =>
    obtain ⟨c, hc, ht⟩ := Option.bind_eq_some_iff.mp ht
    have hcs := children_of_same h
    obtain ⟨hi, rfl⟩ := List.getElem?_eq_some_iff.mp hc
    have hi' : i < e'.children.length := hcs.length_eq ▸ hi
    obtain ⟨t', ht', hsame⟩ := ih (hcs.get hi hi') ht
    exact ⟨t', by rw [part?, List.getElem?_eq_getElem hi']; exact ht', hsame⟩

theorem isFlaw_of_same {t t' : Expr} (h : (t == t') = true) (ht : t.isFlaw = true) :
    t'.isFlaw = true := by
  cases t with
  | const x =>
    cases t' with
    | const y => exact absurd h (Bool.eq_false_iff.mp (Double.not_beq_of_isNaN ht y))
    | _ => cases h
  | binary op a b =>
    cases t' with
    | binary op' a' b' =>
      obtain ⟨hop, hb⟩ := (Bool.and_eq_true _ _).mp h
      obtain ⟨hop, -⟩ := (Bool.and_eq_true _ _).mp hop
      obtain rfl := beq_iff_eq.mp hop
      cases op with
      | div => exact isZero_of_same hb ht
      | _ => cases ht
    | _ => cases h
  | _ => cases ht

theorem flawed_of_same {e e' : Expr} (h : (e == e') = true) (hf : e.Flawed) : e'.Flawed := by
  obtain ⟨place, t, ht, hflaw⟩ := hf
  obtain ⟨t', ht', hsame⟩ := part?_of_same h ht
  exact ⟨place, t', ht', isFlaw_of_same hsame hflaw⟩

/-! ## The power rule -/

theorem isConst_simplifyMul {a : Expr} (ha : a.isZero = true) (b : Expr) :
    (simplifyMul .double a b).isConst = true := by
  cases a with
  | const x =>
    cases b with
    | const y => rfl
    | _ =>
      have hx : (x == 0) = true := ha
      simp [simplifyMul, hx, zero, isConst]
  | _ => cases ha

theorem vanishes_pow {a b : Expr} (hc : a.isConst = false) (ha : a.Flawed)
    (hb : b.isZero = false) : (simplifyPow .double power a b).Vanishes := by
  unfold simplifyPow
  simp only [isZero_eq_false hc, isOne_eq_false hc, hb, Bool.or_false, Bool.false_eq_true, if_false]
  split_ifs
  · exact vanishes_of_flawed hc ha
  · rcases foldOr_cases .double .pow power a b with ⟨hconst, -⟩ | ⟨-, hx⟩
    · rw [hc] at hconst
      cases hconst
    · rw [hx]
      exact flawed_binary_left ha

theorem vanishes_powerRule {f g f' g' : Expr} (hf : (simplifyWith .double f').Vanishes)
    (hg : (simplifyWith .double g').Vanishes) :
    (simplifyWith .double (powerRule f g f' g')).Vanishes := by
  show (simplifyMul .double (simplifyPow .double power (simplifyWith .double f)
    (simplifyWith .double g)) (simplifyAdd .double (simplifyMul .double (simplifyWith .double g')
      (simplifyCall .double .log (simplifyWith .double f))) (simplifyDiv .double
        (simplifyMul .double (simplifyWith .double g) (simplifyWith .double f'))
        (simplifyWith .double f)))).Vanishes
  generalize simplifyWith .double f = f at *
  generalize simplifyWith .double g = g at *
  generalize simplifyWith .double f' = f' at *
  generalize simplifyWith .double g' = g' at *
  have hprod := vanishes_mul_right g hf
  by_cases hself : (simplifyMul .double g f').isConst = false ∧
      (simplifyMul .double g f' == f) = true
  · -- The quotient is one here, but then the base has the flaw of the product.
    obtain ⟨hc, hsame⟩ := hself
    refine vanishes_mul_left (vanishes_pow ?_ (flawed_of_same hsame (hprod.flawed hc)) ?_) _
    · rw [← isConst_of_same hsame, hc]
    · rw [Bool.eq_false_iff]
      intro h0
      rw [isConst_simplifyMul h0] at hc
      cases hc
  · refine vanishes_mul_right _ (vanishes_add (vanishes_mul_left hg _) (vanishes_div hprod ?_))
    intro hc
    exact Bool.eq_false_iff.mpr fun hsame => hself ⟨hc, hsame⟩

/-! ## Derivatives -/

theorem slope_of_finished {e : Expr} (x : String) (h : e.obstacle = none) :
    e.slope x = .ok (simplifyWith .double (deriv x e)) := by
  rw [slope, differentiate_of_finished h]
  exact simplify_of_obstacle_eq_none (finished_deriv x h)

theorem vanishes_deriv {e : Expr} {x : String} (h : e.obstacle = none)
    (hx : x ∉ e.variableNames) : (simplifyWith .double (deriv x e)).Vanishes := by
  induction e with
  | const c => exact vanishes_zero
  | var y =>
    have hne : y ≠ x := fun heq => hx (mem_variableNames_var.mpr heq.symm)
    rw [deriv, if_neg hne]
    exact vanishes_zero
  | neg a iha => exact vanishes_neg (iha h hx)
  | binary op a b iha ihb =>
    obtain ⟨ha, hb⟩ := orElse_eq_none_iff.mp h
    have iha := iha ha fun hmem => hx (mem_variableNames_binary.mpr (Or.inl hmem))
    have ihb := ihb hb fun hmem => hx (mem_variableNames_binary.mpr (Or.inr hmem))
    cases op with
    | add => exact vanishes_add iha ihb
    | sub => exact vanishes_sub iha ihb
    | mul => exact vanishes_add (vanishes_mul_right _ ihb) (vanishes_mul_right _ iha)
    | div => exact vanishes_quotient iha ihb
    | pow => exact vanishes_powerRule iha ihb
  | call f a iha => exact vanishes_mul_right _ (iha h hx)
  | powCall a b iha ihb =>
    obtain ⟨ha, hb⟩ := orElse_eq_none_iff.mp h
    -- The variables of a power are collected alike in both spellings.
    have hx : x ∉ (power a b).variableNames := hx
    exact vanishes_powerRule (iha ha fun hmem => hx (mem_variableNames_binary.mpr (Or.inl hmem)))
      (ihb hb fun hmem => hx (mem_variableNames_binary.mpr (Or.inr hmem)))
  | unknown n a rest iha ihrest =>
    refine iha (orElse_eq_none_iff.mp h).1 fun hmem => hx ?_
    exact mem_variableNames_iff_children.mpr (Or.inr ⟨a, List.mem_cons_self, hmem⟩)
  | blank | pair | datum | oddVar => cases h

theorem slope_of_not_mem {e d : Expr} {x : String} (h : e.obstacle = none)
    (hx : x ∉ e.variableNames) (hd : e.slope x = .ok d) : d.isZero = true ∨ d.Flawed := by
  rw [slope_of_finished x h] at hd
  cases hd
  exact (vanishes_deriv h hx).isZero_or_flawed

end Expr

/-! ## Entries -/

theorem exists_nonzero {eqs : List Expr} (h : ∀ e ∈ eqs, e.obstacle = none) (ps : List String) :
    ∃ entries, Jacobian.nonzero eqs ps = .ok entries := by
  have hrow : ∀ row, ∀ e ∈ eqs, ∃ es, Jacobian.rowEntries Expr.slope ps row e = .ok es := by
    intro row e he
    have hstep : ∀ x ∈ ps, ∃ d, e.slope x = .ok d :=
      fun x _ => ⟨_, Expr.slope_of_finished x (h e he)⟩
    obtain ⟨ds, hds⟩ := exists_mapM hstep
    exact ⟨_, bind_eq_ok_iff.mpr ⟨ds, hds, rfl⟩⟩
  have hrow : ∀ q ∈ eqs.zipIdx, ∃ es, Jacobian.rowEntries Expr.slope ps q.2 q.1 = .ok es :=
    fun q hq => hrow q.2 q.1 (List.fst_mem_of_mem_zipIdx hq)
  obtain ⟨rows, hrows⟩ := exists_mapM hrow
  exact ⟨_, bind_eq_ok_iff.mpr ⟨rows, hrows, rfl⟩⟩

/-- An entry without a flaw stands in the column of a parameter that its equation mentions; that is,
the derivative with respect to any other variable is zero unless it has a flaw. -/
theorem entries_are_dependencies {eqs : List Expr} (h : ∀ e ∈ eqs, e.WellFormed)
    (ps : List String) :
    (∃ entries, Value.partials (eqs.map .expr) (textValues ps) = .ok entries ∧
      ∀ p ∈ entries, ∃ e x, eqs[p.row]? = some e ∧ ps[p.col]? = some x ∧
        (p.expr.Flawed ∨ x ∈ e.variableNames)) ∧
    ∀ e ∈ eqs, ∀ x, x ∉ e.variableNames →
      ∃ d, e.slope x = .ok d ∧ (d.Flawed ∨ d.isZero = true) := by
  have hfin : ∀ e ∈ eqs, e.obstacle = none := fun e he => (h e he).obstacle_eq_none
  constructor
  · obtain ⟨entries, hentries⟩ := exists_nonzero hfin ps
    refine ⟨entries, by rw [partials_eq, hentries], fun p hp => ?_⟩
    obtain ⟨hz, e, x, he, hx, hd⟩ := (Jacobian.mem_nonzero hentries).mp hp
    refine ⟨e, x, he, hx, ?_⟩
    by_cases hmem : x ∈ e.variableNames
    · exact Or.inr hmem
    · rcases Expr.slope_of_not_mem (hfin e (List.mem_of_getElem? he)) hmem hd with h0 | hflaw
      · rw [hz] at h0
        cases h0
      · exact Or.inl hflaw
  · intro e he x hx
    have hd := Expr.slope_of_finished x (hfin e he)
    exact ⟨_, hd, (Expr.slope_of_not_mem (hfin e he) hx hd).symm⟩

/-- A power of `y` has no entry in the column of `x`: its derivative there is zero. -/
theorem entries_are_dependencies_power :
    let e := Expr.power (.var "y") .two
    e.WellFormed ∧ Value.partials [.expr e] (textValues ["x", "y"]) =
        .ok [⟨0, 1, .mul e (.div .two (.var "y"))⟩] ∧
      "y" ∈ e.variableNames ∧ "x" ∉ e.variableNames ∧
        ∃ d, e.slope "x" = .ok d ∧ (d.Flawed ∨ d.isZero = true) := by
  intro e
  have hwf : e.WellFormed := ⟨trivial, trivial⟩
  have hx : "x" ∉ e.variableNames := by decide
  have hall : ∀ e' ∈ [e], e'.WellFormed := by simpa using hwf
  have h := entries_are_dependencies hall ["x", "y"]
  exact ⟨hwf, rfl, by decide, hx, h.2 e (by simp) "x" hx⟩

/-- A division by zero has an entry in the column of a variable that it does not mention, though all
its constants are finite. -/
theorem division_by_zero_has_entry :
    let e := Expr.div (.var "y") .zero
    e.WellFormed ∧ (∀ place c, e.part? place = some (.const c) → c.isFinite = true) ∧
      "x" ∉ e.variableNames ∧
      Value.partials [.expr e] (textValues ["x"]) = .ok [⟨0, 0, .div .zero .zero⟩] ∧
      e.slope "x" = .ok (.div .zero .zero) ∧ (Expr.div .zero .zero).isZero = false := by
  intro e
  refine ⟨⟨trivial, trivial⟩, fun place c hc => ?_, by decide, rfl, rfl, rfl⟩
  match place, hc with
  | [], hc => exact nomatch (show some (Expr.div (.var "y") .zero) = some (.const c) from hc)
  | [0], hc => exact nomatch (show some (Expr.var "y") = some (.const c) from hc)
  | [1], hc =>
    cases hc
    decide +kernel

end Nabla
