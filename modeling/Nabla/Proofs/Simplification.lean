import Nabla.Field
import Nabla.Proofs.RealValue
import Nabla.Proofs.Sequence
import Nabla.Proofs.Tree

/-!
# Simplification keeps the value

A simplified expression has a value wherever the expression has one, and it is the same. Folding
constants computes in doubles, so this is said of the passes whose foldings are exact; which foldings
a pass makes is read off the expression.
-/

noncomputable section

namespace Nabla

/-! ## Foldings -/

/-- A computation on constants that a pass of simplification makes. -/
inductive Folding where
  | combine (op : BinOp) (x y : Float)
  | call (f : Fn) (x : Float)

namespace Folding

/-- The constant that comes out. -/
def result : Folding → Float
  | combine op x y => Arithmetic.double.combine op x y
  | call f x => Arithmetic.double.call f x

/-- The number that should come out, if there is one. -/
def real? : Folding → Option ℝ
  | combine op x y => (Nabla.real? x).bind fun a => (Nabla.real? y).bind (op.real? a)
  | call f x => (Nabla.real? x).bind f.real?

def Exact (c : Folding) : Prop := ∀ v, c.real? = some v → Nabla.real? c.result = some v

end Folding

namespace Expr

/-- Two constants that an operator takes without computing with them. -/
def settled : BinOp → Float → Float → Bool
  | .div, x, y => y == 0 || x == y || x == 0 || y == 1
  | .pow, x, y => x == 0 || x == 1 || y == 0 || y == 1
  | _, _, _ => false

/-- The folding that an operator makes of its simplified operands. -/
def operatorFolding (op : BinOp) : Expr → Expr → List Folding
  | const x, const y => if settled op x y then [] else [.combine op x y]
  | _, _ => []

/-- The folding that a function makes of its simplified argument. -/
def callFolding (f : Fn) : Expr → List Folding
  | const x => [.call f x]
  | _ => []

mutual

/-- The foldings of one pass. -/
def foldings : Expr → List Folding
  | neg a => foldings a
  | binary op a b => foldings a ++ foldings b ++
    operatorFolding op (simplifyWith .double a) (simplifyWith .double b)
  | call f a => foldings a ++ callFolding f (simplifyWith .double a)
  | powCall a b => foldings a ++ foldings b ++
    operatorFolding .pow (simplifyWith .double a) (simplifyWith .double b)
  | unknown _ a rest => foldings a ++ allFoldings rest
  | const _ | var _ | blank | pair _ _ | datum _ | oddVar _ => []

def allFoldings : List Expr → List Folding
  | [] => []
  | e :: es => foldings e ++ allFoldings es

end

/-- One pass computes exactly. -/
def ExactFoldings (e : Expr) : Prop := ∀ c ∈ e.foldings, c.Exact

/-- Every pass computes exactly, as far as passes are made. -/
def ExactPasses : Nat → Expr → Prop
  | 0, _ => True
  | n + 1, e => e.ExactFoldings ∧
    ((simplifyWith .double e).text ≠ e.text → ExactPasses n (simplifyWith .double e))

/-! ## Refinement -/

/-- Where the first expression has a value, the second one has the same. -/
def Refines (ρ : String → ℝ) (e e' : Expr) : Prop := ∀ v, e.value ρ = some v → e'.value ρ = some v

variable {ρ : String → ℝ}

theorem Refines.refl (e : Expr) : Refines ρ e e := fun _ h => h

theorem Refines.trans {e e' e'' : Expr} (h : Refines ρ e e') (h' : Refines ρ e' e'') :
    Refines ρ e e'' := fun v hv => h' v (h v hv)

theorem Refines.neg {a a' : Expr} (h : Refines ρ a a') : Refines ρ (neg a) (neg a') := by
  intro v hv
  rw [value_neg, Option.map_eq_some_iff] at hv ⊢
  obtain ⟨x, hx, rfl⟩ := hv
  exact ⟨x, h x hx, rfl⟩

theorem Refines.binary {a a' b b' : Expr} (ha : Refines ρ a a') (hb : Refines ρ b b') (op : BinOp) :
    Refines ρ (binary op a b) (binary op a' b') := by
  intro v hv
  rw [value_binary_eq_some_iff] at hv ⊢
  obtain ⟨x, y, hx, hy, hxy⟩ := hv
  exact ⟨x, y, ha x hx, hb y hy, hxy⟩

theorem Refines.call {a a' : Expr} (h : Refines ρ a a') (f : Fn) :
    Refines ρ (call f a) (call f a') := by
  intro v hv
  rw [value_call_eq_some_iff] at hv ⊢
  obtain ⟨x, hx, hfx⟩ := hv
  exact ⟨x, h x hx, hfx⟩

theorem value_of_same {e e' : Expr} (h : same e e' = true) : e.value ρ = e'.value ρ := by
  induction e generalizing e' with
  | const x =>
    cases e' <;> simp only [same, Bool.false_eq_true] at h
    exact Double.real?_of_beq h
  | var x =>
    cases e' <;> simp only [same, Bool.false_eq_true, beq_iff_eq] at h
    rw [h]
  | neg a iha =>
    cases e' <;> simp only [same, Bool.false_eq_true] at h
    rw [value_neg, value_neg, iha h]
  | binary op a b iha ihb =>
    cases e' <;> simp only [same, Bool.false_eq_true, Bool.and_eq_true, beq_iff_eq] at h
    obtain ⟨⟨rfl, ha⟩, hb⟩ := h
    rw [value_binary, value_binary, iha ha, ihb hb]
  | call f a iha =>
    cases e' <;> simp only [same, Bool.false_eq_true, Bool.and_eq_true, beq_iff_eq] at h
    obtain ⟨rfl, ha⟩ := h
    rw [value_call, value_call, iha ha]
  | powCall a b iha ihb =>
    cases e' <;> simp only [same, Bool.false_eq_true, Bool.and_eq_true] at h
    rw [value_powCall, value_powCall, power, power, value_binary, value_binary, iha h.1, ihb h.2]
  | unknown | blank | pair | datum | oddVar =>
    cases e' <;> simp only [same, Bool.false_eq_true] at h <;> rfl

theorem value_of_isZero {a : Expr} (h : isZero a = true) : a.value ρ = some 0 := by
  cases a <;> simp only [isZero, Bool.false_eq_true] at h
  exact (Double.real?_of_beq h).trans Double.real?_zero

theorem value_of_isOne {a : Expr} (h : isOne a = true) : a.value ρ = some 1 := by
  cases a <;> simp only [isOne, Bool.false_eq_true] at h
  exact (Double.real?_of_beq h).trans Double.real?_one


/-! ## The rules -/

theorem refines_of_operands {op : BinOp} {a b r : Expr}
    (h : ∀ x y v, a.value ρ = some x → b.value ρ = some y → op.real? x y = some v →
      r.value ρ = some v) : Refines ρ (binary op a b) r := by
  intro v hv
  obtain ⟨x, y, hx, hy, hxy⟩ := value_binary_eq_some_iff.mp hv
  exact h x y v hx hy hxy

theorem refines_fold {op : BinOp} {x y : Float} (h : (Folding.combine op x y).Exact) :
    Refines ρ (binary op (const x) (const y)) (const (Arithmetic.double.combine op x y)) := by
  intro v hv
  rw [value_binary] at hv
  exact h v hv

theorem simplifyNeg_refines (a : Expr) : Refines ρ (neg a) (simplifyNeg .double a) := by
  unfold simplifyNeg
  split
  · intro v hv
    exact (Double.real?_neg _).trans hv
  · exact .refl _

theorem refines_neutral_left {op : BinOp} {a b : Expr} {c : ℝ} (ha : a.value ρ = some c)
    (hc : ∀ y, op.real? c y = some y) : Refines ρ (binary op a b) b := by
  refine refines_of_operands fun x y v hx hy hv => ?_
  obtain rfl : c = x := Option.some.inj (ha.symm.trans hx)
  rw [hy, ← hc y, hv]

theorem refines_neutral_right {op : BinOp} {a b : Expr} {c : ℝ} (hb : b.value ρ = some c)
    (hc : ∀ x, op.real? x c = some x) : Refines ρ (binary op a b) a := by
  refine refines_of_operands fun x y v hx hy hv => ?_
  obtain rfl : c = y := Option.some.inj (hb.symm.trans hy)
  rw [hx, ← hc x, hv]

theorem refines_absorbing_left {op : BinOp} {a b r : Expr} {c w : ℝ} (ha : a.value ρ = some c)
    (hc : ∀ y v, op.real? c y = some v → v = w) (hr : r.value ρ = some w) :
    Refines ρ (binary op a b) r := by
  refine refines_of_operands fun x y v hx _ hv => ?_
  obtain rfl : c = x := Option.some.inj (ha.symm.trans hx)
  rw [hr, hc y v hv]

theorem refines_absorbing_right {op : BinOp} {a b r : Expr} {c w : ℝ} (hb : b.value ρ = some c)
    (hc : ∀ x v, op.real? x c = some v → v = w) (hr : r.value ρ = some w) :
    Refines ρ (binary op a b) r := by
  refine refines_of_operands fun x y v _ hy hv => ?_
  obtain rfl : c = y := Option.some.inj (hb.symm.trans hy)
  rw [hr, hc x v hv]

theorem simplifyAdd_refines {a b : Expr} (h : ∀ c ∈ operatorFolding .add a b, c.Exact) :
    Refines ρ (binary .add a b) (simplifyAdd .double a b) := by
  unfold simplifyAdd
  split
  · exact refines_fold (h _ (List.mem_singleton.mpr rfl))
  · split_ifs with h0
    · exact refines_neutral_left (value_of_isZero h0) fun y => congrArg some (zero_add y)
    · exact .refl _
  · split_ifs with h0
    · exact refines_neutral_right (value_of_isZero h0) fun x => congrArg some (add_zero x)
    · exact .refl _
  · exact .refl _

theorem simplifySub_refines {a b : Expr} (h : ∀ c ∈ operatorFolding .sub a b, c.Exact) :
    Refines ρ (binary .sub a b) (simplifySub .double a b) := by
  unfold simplifySub
  split
  · exact refines_fold (h _ (List.mem_singleton.mpr rfl))
  · split_ifs with h0
    · refine refines_of_operands fun x y v hx hy hv => ?_
      obtain rfl : 0 = x := Option.some.inj ((value_of_isZero (a := const _) h0).symm.trans hx)
      rw [value_neg, hy, ← hv]
      exact congrArg some (zero_sub y).symm
    · exact .refl _
  · split_ifs with h0
    · exact refines_neutral_right (value_of_isZero h0) fun x => congrArg some (sub_zero x)
    · exact .refl _
  · exact .refl _

theorem simplifyMul_refines {a b : Expr} (h : ∀ c ∈ operatorFolding .mul a b, c.Exact) :
    Refines ρ (binary .mul a b) (simplifyMul .double a b) := by
  unfold simplifyMul
  split
  · exact refines_fold (h _ (List.mem_singleton.mpr rfl))
  · split_ifs with h0 h1
    · refine refines_absorbing_left (value_of_isZero h0) (fun y v hv => ?_) (value_zero ρ)
      exact (Option.some.inj hv).symm.trans (zero_mul y)
    · exact refines_neutral_left (value_of_isOne h1) fun y => congrArg some (one_mul y)
    · exact .refl _
  · split_ifs with h0 h1
    · refine refines_absorbing_right (value_of_isZero h0) (fun x v hv => ?_) (value_zero ρ)
      exact (Option.some.inj hv).symm.trans (mul_zero x)
    · exact refines_neutral_right (value_of_isOne h1) fun x => congrArg some (mul_one x)
    · exact .refl _
  · exact .refl _

theorem foldOr_refines {op : BinOp} {a b : Expr} {rebuild : Expr → Expr → Expr}
    (hs : ∀ x y, a = const x → b = const y → settled op x y = false)
    (hr : Refines ρ (binary op a b) (rebuild a b)) (h : ∀ c ∈ operatorFolding op a b, c.Exact) :
    Refines ρ (binary op a b) (foldOr .double op rebuild a b) := by
  unfold foldOr
  split
  · refine refines_fold (h _ ?_)
    rw [operatorFolding, hs _ _ rfl rfl]
    exact List.mem_singleton.mpr rfl
  · exact hr

theorem div_self_refines {a b : Expr} (h : (a == b) = true) :
    Refines ρ (binary .div a b) one := by
  refine refines_of_operands fun x y v hx hy hv => ?_
  obtain rfl : x = y := Option.some.inj (hx.symm.trans ((value_of_same h).trans hy))
  rw [BinOp.real?] at hv
  split_ifs at hv with h0
  rw [value_one, ← hv, div_self h0]

theorem real?_div_zero_left {y v : ℝ} (h : BinOp.div.real? 0 y = some v) : v = 0 := by
  rw [BinOp.real?] at h
  split_ifs at h
  rw [← Option.some.inj h, zero_div]

theorem real?_div_one (x : ℝ) : BinOp.div.real? x 1 = some x := by
  rw [BinOp.real?, if_neg one_ne_zero, div_one]

theorem simplifyDiv_refines {a b : Expr} (h : ∀ c ∈ operatorFolding .div a b, c.Exact) :
    Refines ρ (binary .div a b) (simplifyDiv .double a b) := by
  unfold simplifyDiv
  split_ifs with hb0 hab ha0 hb1
  · exact .refl _
  · exact div_self_refines hab
  · exact refines_absorbing_left (value_of_isZero ha0) (fun _ _ => real?_div_zero_left)
      (value_zero ρ)
  · exact refines_neutral_right (value_of_isOne hb1) real?_div_one
  · -- none of the shortcuts was taken, so two constants are folded
    refine foldOr_refines ?_ (.refl _) h
    rintro x y rfl rfl
    simp only [settled, Bool.eq_false_iff, ne_eq, Bool.or_eq_true, not_or]
    exact ⟨⟨⟨hb0, hab⟩, ha0⟩, hb1⟩

theorem simplifyPow_refines {a b : Expr} {rebuild : Expr → Expr → Expr}
    (hr : Refines ρ (binary .pow a b) (rebuild a b))
    (h : ∀ c ∈ operatorFolding .pow a b, c.Exact) :
    Refines ρ (binary .pow a b) (simplifyPow .double rebuild a b) := by
  unfold simplifyPow
  split_ifs with ha0 hb0 h1 hb1
  · exact hr
  · exact refines_absorbing_left (value_of_isZero ha0) (fun _ _ => realPow?_eq_zero_of_base)
      (value_zero ρ)
  · rcases Bool.or_eq_true_iff.mp h1 with ha1 | hb0
    · refine refines_absorbing_left (value_of_isOne ha1) (fun y v hv => ?_) (value_one ρ)
      exact (Option.some.inj ((realPow?_one_base y).symm.trans hv)).symm
    · exact refines_absorbing_right (value_of_isZero hb0) (fun _ _ => realPow?_zero) (value_one ρ)
  · exact refines_neutral_right (value_of_isOne hb1) realPow?_one
  · refine foldOr_refines ?_ hr h
    rintro x y rfl rfl
    simp only [settled, Bool.eq_false_iff, ne_eq, Bool.or_eq_true, not_or] at h1 ⊢
    exact ⟨⟨⟨ha0, h1.1⟩, h1.2⟩, hb1⟩

theorem log_exp_refines (u : Expr) : Refines ρ (call .log (call .exp u)) u := by
  intro v hv
  obtain ⟨y, hy, hlog⟩ := value_call_eq_some_iff.mp hv
  obtain ⟨x, hx, hexp⟩ := value_call_eq_some_iff.mp hy
  obtain ⟨-, rfl⟩ := Fn.real?_eq_some_iff.mp hexp
  obtain ⟨-, rfl⟩ := Fn.real?_eq_some_iff.mp hlog
  exact hx.trans (congrArg some (Real.log_exp x).symm)

theorem exp_log_refines (u : Expr) : Refines ρ (call .exp (call .log u)) u := by
  intro v hv
  obtain ⟨y, hy, hexp⟩ := value_call_eq_some_iff.mp hv
  obtain ⟨x, hx, hlog⟩ := value_call_eq_some_iff.mp hy
  obtain ⟨hpos, rfl⟩ := Fn.real?_eq_some_iff.mp hlog
  obtain ⟨-, rfl⟩ := Fn.real?_eq_some_iff.mp hexp
  exact hx.trans (congrArg some (Real.exp_log hpos).symm)

theorem simplifyCall_refines {f : Fn} {a : Expr} (h : ∀ c ∈ callFolding f a, c.Exact) :
    Refines ρ (call f a) (simplifyCall .double f a) := by
  unfold simplifyCall
  split
  · intro v hv
    rw [value_call] at hv
    exact h _ (List.mem_singleton.mpr rfl) v hv
  · exact log_exp_refines _
  · exact exp_log_refines _
  · exact .refl _

/-! ## One pass and several -/

theorem simplifyBinary_refines {op : BinOp} {a b : Expr}
    (h : ∀ c ∈ operatorFolding op a b, c.Exact) :
    Refines ρ (binary op a b) (simplifyBinary .double op a b) := by
  cases op with
  | add => exact simplifyAdd_refines h
  | sub => exact simplifySub_refines h
  | mul => exact simplifyMul_refines h
  | div => exact simplifyDiv_refines h
  | pow => exact simplifyPow_refines (.refl _) h

theorem simplifyWith_refines {e : Expr} (h : e.ExactFoldings) :
    Refines ρ e (simplifyWith .double e) := by
  induction e with
  | const | var => exact .refl _
  | neg a iha => exact (iha h).neg.trans (simplifyNeg_refines _)
  | binary op a b iha ihb =>
    have ha := iha fun c hc => h c (List.mem_append_left _ (List.mem_append_left _ hc))
    have hb := ihb fun c hc => h c (List.mem_append_left _ (List.mem_append_right _ hc))
    exact (ha.binary hb op).trans
      (simplifyBinary_refines fun c hc => h c (List.mem_append_right _ hc))
  | call f a iha =>
    have ha := iha fun c hc => h c (List.mem_append_left _ hc)
    exact (ha.call f).trans (simplifyCall_refines fun c hc => h c (List.mem_append_right _ hc))
  | powCall a b iha ihb =>
    have ha := iha fun c hc => h c (List.mem_append_left _ (List.mem_append_left _ hc))
    have hb := ihb fun c hc => h c (List.mem_append_left _ (List.mem_append_right _ hc))
    exact (ha.binary hb .pow).trans
      (simplifyPow_refines (.refl _) fun c hc => h c (List.mem_append_right _ hc))
  -- these never have a value
  | unknown | blank | pair | datum | oddVar => exact fun v hv => nomatch hv

theorem obstacle_eq_none {e : Expr} {v : ℝ} (h : e.value ρ = some v) : e.obstacle = none := by
  induction e generalizing v with
  | const | var => rfl
  | neg a iha =>
    rw [value_neg, Option.map_eq_some_iff] at h
    obtain ⟨x, hx, -⟩ := h
    exact iha hx
  | binary op a b iha ihb | powCall a b iha ihb =>
    obtain ⟨x, y, hx, hy, -⟩ := value_binary_eq_some_iff.mp h
    rw [obstacle, iha hx, ihb hy]
    rfl
  | call f a iha =>
    obtain ⟨x, hx, -⟩ := value_call_eq_some_iff.mp h
    exact iha hx
  | unknown | blank | pair | datum | oddVar => exact nomatch h

theorem simplify_value {e : Expr} {v : ℝ} (hv : e.value ρ = some v) (h : e.ExactFoldings) :
    ∃ e', e.simplify = .ok e' ∧ e'.value ρ = some v :=
  ⟨_, simplify_of_obstacle_eq_none (obstacle_eq_none hv), simplifyWith_refines h v hv⟩

theorem simplifyFull_value {n : Nat} {e : Expr} {v : ℝ} (hv : e.value ρ = some v)
    (h : e.ExactPasses n) : ∃ e', e.simplifyFull n = .ok e' ∧ e'.value ρ = some v := by
  induction n generalizing e with
  | zero => exact ⟨e, rfl, hv⟩
  | succ n ih =>
    rw [simplifyFull_step (obstacle_eq_none hv)]
    -- a pass that leaves the text alone is dropped, and no further one is made
    by_cases ht : (simplifyWith .double e).text = e.text
    · exact ⟨e, if_pos ht, hv⟩
    · rw [if_neg ht]
      exact ih (simplifyWith_refines h.1 v hv) (h.2 ht)

/-- What simplification owes to each component of a function. -/
def KeepsValue (ρ : String → ℝ) (e e' : Expr) : Prop := e.ExactFoldings → Refines ρ e e'

theorem mapM_simplify {es : List Expr} (h : ∀ e ∈ es, e.obstacle = none) :
    es.mapM simplify = .ok (es.map (simplifyWith .double)) := by
  rw [mapM_eq_ok_iff, List.forall₂_map_right_iff, List.forall₂_same]
  exact fun e he => simplify_of_obstacle_eq_none (h e he)

theorem keepsValue_map (es : List Expr) :
    List.Forall₂ (KeepsValue ρ) es (es.map (simplifyWith .double)) := by
  rw [List.forall₂_map_right_iff, List.forall₂_same]
  exact fun e _ h => simplifyWith_refines h

end Expr

theorem Lambda.simplify_array {parameters : List String} {es : List Expr}
    (h : ∀ e ∈ es, e.obstacle = none) :
    simplify ⟨parameters, .array es⟩ =
      .ok ⟨parameters, .array (es.map (Expr.simplifyWith .double))⟩ := by
  unfold simplify mapBody
  exact bind_eq_ok_iff.mpr ⟨_, Expr.mapM_simplify h, rfl⟩

theorem Lambda.simplify_keepsValue (ρ : String → ℝ) {f : Lambda}
    (h : ∀ e ∈ f.components, e.obstacle = none) :
    ∃ g, f.simplify = .ok g ∧ List.Forall₂ (Expr.KeepsValue ρ) f.components g.components := by
  obtain ⟨parameters, body⟩ := f
  cases body with
  | none => exact ⟨empty, rfl, .nil⟩
  | scalar e =>
    have he := Expr.simplify_of_obstacle_eq_none (h e (List.mem_singleton.mpr rfl))
    refine ⟨⟨parameters, .scalar (Expr.simplifyWith .double e)⟩, ?_, Expr.keepsValue_map [e]⟩
    unfold simplify mapBody
    exact bind_eq_ok_iff.mpr ⟨_, he, rfl⟩
  | array es => exact ⟨_, simplify_array h, Expr.keepsValue_map es⟩

theorem Field.simplify_keepsValue (ρ : String → ℝ) {F : Field} (b : LogBook)
    (h : ∀ e ∈ F.bodies, e.obstacle = none) :
    ∃ G, F.simplify.run.run b = (.ok G, b) ∧ List.Forall₂ (Expr.KeepsValue ρ) F.bodies G.bodies := by
  -- A field keeps its number of components, so nothing is reported.
  let bodies := F.bodies.map (Expr.simplifyWith .double)
  have hlen : F.parameters.length = bodies.length := by
    rw [List.length_map, F.balanced]
  have hl : ofLambda ⟨F.parameters, .array bodies⟩ F.log =
      pure ⟨F.parameters, bodies, F.log, hlen⟩ := by
    unfold ofLambda
    exact dif_pos hlen
  refine ⟨⟨F.parameters, bodies, F.log, hlen⟩, ?_, Expr.keepsValue_map F.bodies⟩
  unfold simplify
  rw [toLambda, Lambda.simplify_array h]
  show (liftM (ofLambda ⟨F.parameters, .array bodies⟩ F.log) : Reporting Field).run.run b = _
  rw [hl]
  rfl

/-- Simplification keeps the value wherever there is one: in one pass, in any number of passes, and
in every component of a function and of a field. -/
theorem simplification_keeps_value (ρ : String → ℝ) :
    (∀ (e : Expr) (v : ℝ), e.value ρ = some v → e.ExactFoldings →
      ∃ e', e.simplify = .ok e' ∧ e'.value ρ = some v) ∧
    (∀ (n : Nat) (e : Expr) (v : ℝ), e.value ρ = some v → e.ExactPasses n →
      ∃ e', e.simplifyFull n = .ok e' ∧ e'.value ρ = some v) ∧
    (∀ f : Lambda, (∀ e ∈ f.components, e.obstacle = none) →
      ∃ g, f.simplify = .ok g ∧ List.Forall₂ (Expr.KeepsValue ρ) f.components g.components) ∧
    (∀ (F : Field) (b : LogBook), (∀ e ∈ F.bodies, e.obstacle = none) →
      ∃ G, F.simplify.run.run b = (.ok G, b) ∧
        List.Forall₂ (Expr.KeepsValue ρ) F.bodies G.bodies) :=
  ⟨fun _ _ => Expr.simplify_value, fun _ _ _ => Expr.simplifyFull_value,
    fun _ => Lambda.simplify_keepsValue ρ, fun _ => Field.simplify_keepsValue ρ⟩

/-- Constants are folded, and a logarithm of an exponential is taken away. -/
theorem simplification_keeps_value_log_exp :
    let e := Expr.mul (.add .one .one) (.call .log (.call .exp (.var "x")))
    let ρ : String → ℝ := fun _ => 5
    e.value ρ = some (2 * Real.log (Real.exp 5)) ∧ e.ExactFoldings ∧
      ∃ e', e.simplify = .ok e' ∧ e'.value ρ = some (2 * Real.log (Real.exp 5)) := by
  intro e ρ
  have hone := Expr.value_one ρ
  have hsum : (Expr.add .one .one).value ρ = some 2 :=
    (Expr.value_binary_of hone hone).trans (congrArg some one_add_one_eq_two)
  have hexp : (Expr.call .exp (.var "x")).value ρ = some (Real.exp 5) :=
    Expr.value_call_of (Expr.value_var ρ "x") trivial
  have hlog : (Expr.call .log (.call .exp (.var "x"))).value ρ = some (Real.log (Real.exp 5)) :=
    Expr.value_call_of hexp (Real.exp_pos 5)
  have hv : e.value ρ = some (2 * Real.log (Real.exp 5)) := Expr.value_binary_of hsum hlog
  have h : e.ExactFoldings := by
    have hf : e.foldings = [.combine .add 1 1] := rfl
    have htwo : (1 + 1 : Float) = 2 := by decide +kernel
    intro c hc v hcv
    obtain rfl := List.mem_singleton.mp (hf ▸ hc)
    show Nabla.real? (1 + 1) = some v
    rw [htwo, Double.real?_two]
    exact hsum.symm.trans ((Expr.value_binary ρ .add .one .one).trans hcv)
  exact ⟨hv, h, (simplification_keeps_value ρ).1 e _ hv h⟩

end Nabla

end
