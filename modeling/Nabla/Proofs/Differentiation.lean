import Mathlib.Analysis.Calculus.Deriv.Abs
import Mathlib.Analysis.SpecialFunctions.Pow.Deriv
import Mathlib.Analysis.SpecialFunctions.Sqrt
import Mathlib.Analysis.SpecialFunctions.Trigonometric.ArctanDeriv
import Mathlib.Analysis.SpecialFunctions.Trigonometric.InverseDeriv
import Nabla.Proofs.RealValue
import Nabla.Proofs.Tree

/-!
# The rules of differentiation are right

Where an expression is smooth, it is defined in a whole neighbourhood of the point, and the tree that
the rules make of it has the derivative as its value.
-/

noncomputable section

open Filter Topology

namespace Nabla

/-! ## The functions -/

namespace Fn

/-- Where a function has a derivative. -/
def SmoothAt : Fn → ℝ → Prop
  | log, u | sqrt, u => 0 < u
  | abs, u => u ≠ 0
  | tan, u => Real.cos u ≠ 0
  | asin, u | acos, u => -1 < u ∧ u < 1
  | exp, _ | sin, _ | cos, _ | atan, _ => True

def slope : Fn → ℝ → ℝ
  | log, u => 1 / u
  | exp, u => Real.exp u
  | abs, u => u / |u|
  | sqrt, u => 1 / (√u + √u)
  | sin, u => Real.cos u
  | cos, u => -Real.sin u
  | tan, u => 1 / Real.cos u ^ 2
  | asin, u => 1 / √(1 - u ^ 2)
  | acos, u => -(1 / √(1 - u ^ 2))
  | atan, u => 1 / (1 + u ^ 2)

theorem hasDerivAt_toReal (f : Fn) {u : ℝ} (h : f.SmoothAt u) :
    HasDerivAt f.toReal (f.slope u) u := by
  cases f with
  | log =>
    have hu : u ≠ 0 := (show 0 < u from h).ne'
    simpa [toReal, slope] using Real.hasDerivAt_log hu
  | exp => exact Real.hasDerivAt_exp u
  | abs =>
    have hd := hasDerivAt_abs (show u ≠ 0 from h)
    have hs : (SignType.sign u : ℝ) = u / |u| := by
      rw [eq_div_iff (abs_ne_zero.mpr h), sign_mul_abs]
    exact hd.congr_deriv hs
  | sqrt =>
    rw [slope, ← two_mul]
    exact Real.hasDerivAt_sqrt (show 0 < u from h).ne'
  | sin => exact Real.hasDerivAt_sin u
  | cos => exact Real.hasDerivAt_cos u
  | tan => exact Real.hasDerivAt_tan h
  | asin => exact Real.hasDerivAt_arcsin h.1.ne' h.2.ne
  | acos => exact Real.hasDerivAt_arccos h.1.ne' h.2.ne
  | atan => exact Real.hasDerivAt_arctan u

theorem eventually_domain (f : Fn) {u : ℝ} (h : f.SmoothAt u) : ∀ᶠ t in 𝓝 u, f.Domain t := by
  cases f with
  | log => exact eventually_gt_nhds h
  | sqrt => exact (eventually_gt_nhds h).mono fun _ ht => le_of_lt ht
  | tan => exact Real.continuous_cos.continuousAt.eventually_ne h
  | asin | acos =>
    filter_upwards [eventually_gt_nhds h.1, eventually_lt_nhds h.2] with t h1 h2
    exact ⟨h1.le, h2.le⟩
  | exp | abs | sin | cos | atan => exact Eventually.of_forall fun _ => trivial

end Fn

namespace Expr

variable {ρ : String → ℝ}

theorem value_div_of {a b : Expr} {x y : ℝ} (ha : a.value ρ = some x) (hb : b.value ρ = some y)
    (hy : y ≠ 0) : (div a b).value ρ = some (x / y) := by
  rw [div, value_binary_of ha hb]
  exact if_neg hy

theorem value_square {a : Expr} {x : ℝ} (ha : a.value ρ = some x) :
    (power a two).value ρ = some (x ^ 2) := by
  rw [power, value_binary_of ha (value_two ρ)]
  exact realPow?_two x

theorem value_root {a : Expr} {u : ℝ} (ha : a.value ρ = some u) (h : -1 < u ∧ u < 1) :
    (call .sqrt (sub one (power a two))).value ρ = some (√(1 - u ^ 2)) ∧ √(1 - u ^ 2) ≠ 0 := by
  have hpos : 0 < 1 - u ^ 2 := by nlinarith [h.1, h.2]
  have hs : (sub one (power a two)).value ρ = some (1 - u ^ 2) :=
    value_binary_of (value_one ρ) (value_square ha)
  exact ⟨value_call_of hs hpos.le, (Real.sqrt_pos.mpr hpos).ne'⟩

theorem value_outer (f : Fn) {a : Expr} {u : ℝ} (ha : a.value ρ = some u) (h : f.SmoothAt u) :
    (outer f a).value ρ = some (f.slope u) := by
  cases f with
  | log => exact value_div_of (value_one ρ) ha (show 0 < u from h).ne'
  | exp => exact value_call_of ha trivial
  | abs => exact value_div_of ha (value_call_of ha trivial) (abs_ne_zero.mpr h)
  | sqrt =>
    have hu : 0 < u := h
    have hs : (mul two (call .sqrt a)).value ρ = some (2 * √u) :=
      value_binary_of (value_two ρ) (value_call_of ha hu.le)
    have hne : 2 * √u ≠ 0 := by positivity
    rw [Fn.slope, ← two_mul]
    exact value_div_of (value_one ρ) hs hne
  | sin => exact value_call_of ha trivial
  | cos =>
    have hs : (call .sin a).value ρ = some (Real.sin u) := value_call_of ha trivial
    rw [outer, value_neg, hs]
    rfl
  | tan =>
    have hc : (call .cos a).value ρ = some (Real.cos u) := value_call_of ha trivial
    exact value_div_of (value_one ρ) (value_square hc) (pow_ne_zero 2 h)
  | asin =>
    obtain ⟨hr, hne⟩ := value_root ha h
    exact value_div_of (value_one ρ) hr hne
  | acos =>
    obtain ⟨hr, hne⟩ := value_root ha h
    rw [outer, value_neg, value_div_of (value_one ρ) hr hne]
    rfl
  | atan =>
    have hs : (add one (power a two)).value ρ = some (1 + u ^ 2) :=
      value_binary_of (value_one ρ) (value_square ha)
    have hne : 1 + u ^ 2 ≠ 0 := by positivity
    exact value_div_of (value_one ρ) hs hne

/-! ## Partial derivatives -/

/-- Near a point the expression has values as the variable `x` alone changes, and their derivative at
the point is `d`. -/
def HasPartialAt (e : Expr) (x : String) (ρ : String → ℝ) (d : ℝ) : Prop :=
  ∃ f : ℝ → ℝ, (∀ᶠ t in 𝓝 (ρ x), e.value (Function.update ρ x t) = some (f t)) ∧
    HasDerivAt f d (ρ x)

variable {x : String}

theorem hasPartialAt_const {c : Float} {v : ℝ} (h : real? c = some v) :
    (const c).HasPartialAt x ρ 0 :=
  ⟨fun _ => v, Eventually.of_forall fun _ => h, hasDerivAt_const _ _⟩

theorem hasPartialAt_var (y : String) : (var y).HasPartialAt x ρ (if y = x then 1 else 0) := by
  by_cases h : y = x
  · subst h
    refine ⟨id, Eventually.of_forall fun t => ?_, ?_⟩
    · simp
    · simpa using hasDerivAt_id (ρ y)
  · refine ⟨fun _ => ρ y, Eventually.of_forall fun t => ?_, ?_⟩
    · simp [Function.update_of_ne h]
    · simpa [h] using hasDerivAt_const (ρ x) (ρ y)

theorem HasPartialAt.neg {a : Expr} {d : ℝ} (h : a.HasPartialAt x ρ d) :
    (neg a).HasPartialAt x ρ (-d) := by
  obtain ⟨f, hf, hd⟩ := h
  refine ⟨fun t => -f t, ?_, hd.neg⟩
  filter_upwards [hf] with t ht
  rw [value_neg, ht]; rfl

theorem HasPartialAt.binary {op : BinOp} {a b : Expr} {f g F : ℝ → ℝ} {d : ℝ}
    (hf : ∀ᶠ t in 𝓝 (ρ x), a.value (Function.update ρ x t) = some (f t))
    (hg : ∀ᶠ t in 𝓝 (ρ x), b.value (Function.update ρ x t) = some (g t))
    (hF : ∀ᶠ t in 𝓝 (ρ x), op.real? (f t) (g t) = some (F t)) (hd : HasDerivAt F d (ρ x)) :
    (Expr.binary op a b).HasPartialAt x ρ d := by
  refine ⟨F, ?_, hd⟩
  filter_upwards [hf, hg, hF] with t htf htg htF
  rw [value_binary_of htf htg, htF]

theorem value_of_eventually {a : Expr} {f : ℝ → ℝ}
    (hf : ∀ᶠ t in 𝓝 (ρ x), a.value (Function.update ρ x t) = some (f t)) :
    a.value ρ = some (f (ρ x)) := by
  have h := hf.self_of_nhds
  rwa [Function.update_eq_self] at h

/-! ## The rules -/

/-- The rules give the partial derivative of the expression at the point. -/
def DerivedAt (e : Expr) (x : String) (ρ : String → ℝ) : Prop :=
  ∃ d, (e.deriv x).value ρ = some d ∧ e.HasPartialAt x ρ d

theorem derivedAt_const {c : Float} (h : c.isFinite = true) : (const c).DerivedAt x ρ := by
  obtain ⟨v, hv⟩ := (Double.isFinite_iff c).mp h
  exact ⟨0, value_zero ρ, hasPartialAt_const hv⟩

theorem derivedAt_var (y : String) : (var y).DerivedAt x ρ := by
  refine ⟨if y = x then 1 else 0, ?_, hasPartialAt_var y⟩
  rw [deriv]
  split_ifs
  · exact value_one ρ
  · exact value_zero ρ

theorem DerivedAt.neg {a : Expr} (ha : a.DerivedAt x ρ) : (neg a).DerivedAt x ρ := by
  obtain ⟨d, hd, hp⟩ := ha
  refine ⟨-d, ?_, hp.neg⟩
  rw [deriv, value_neg, hd]
  rfl

theorem DerivedAt.add {a b : Expr} (ha : a.DerivedAt x ρ) (hb : b.DerivedAt x ρ) :
    (binary .add a b).DerivedAt x ρ := by
  obtain ⟨d, hd, f, hf, hfd⟩ := ha
  obtain ⟨c, hc, g, hg, hgd⟩ := hb
  refine ⟨d + c, value_binary_of hd hc, ?_⟩
  exact .binary hf hg (Eventually.of_forall fun _ => rfl) (hfd.add hgd)

theorem DerivedAt.sub {a b : Expr} (ha : a.DerivedAt x ρ) (hb : b.DerivedAt x ρ) :
    (binary .sub a b).DerivedAt x ρ := by
  obtain ⟨d, hd, f, hf, hfd⟩ := ha
  obtain ⟨c, hc, g, hg, hgd⟩ := hb
  refine ⟨d - c, value_binary_of hd hc, ?_⟩
  exact .binary hf hg (Eventually.of_forall fun _ => rfl) (hfd.sub hgd)

theorem DerivedAt.mul {a b : Expr} (ha : a.DerivedAt x ρ) (hb : b.DerivedAt x ρ) :
    (binary .mul a b).DerivedAt x ρ := by
  obtain ⟨d, hd, f, hf, hfd⟩ := ha
  obtain ⟨c, hc, g, hg, hgd⟩ := hb
  have hl : (Expr.mul a (b.deriv x)).value ρ = some (f (ρ x) * c) :=
    value_binary_of (value_of_eventually hf) hc
  have hr : (Expr.mul b (a.deriv x)).value ρ = some (g (ρ x) * d) :=
    value_binary_of (value_of_eventually hg) hd
  refine ⟨f (ρ x) * c + g (ρ x) * d, value_binary_of hl hr, ?_⟩
  refine .binary hf hg (Eventually.of_forall fun _ => rfl) ((hfd.mul hgd).congr_deriv ?_)
  ring

theorem DerivedAt.div {a b : Expr} (ha : a.DerivedAt x ρ) (hb : b.DerivedAt x ρ)
    (hne : ∀ v ∈ b.value ρ, v ≠ 0) : (binary .div a b).DerivedAt x ρ := by
  obtain ⟨d, hd, f, hf, hfd⟩ := ha
  obtain ⟨c, hc, g, hg, hgd⟩ := hb
  have hvb := value_of_eventually hg
  have hg0 : g (ρ x) ≠ 0 := hne _ hvb
  have hl : (Expr.mul b (a.deriv x)).value ρ = some (g (ρ x) * d) := value_binary_of hvb hd
  have hr : (Expr.mul a (b.deriv x)).value ρ = some (f (ρ x) * c) :=
    value_binary_of (value_of_eventually hf) hc
  have hn : (Expr.sub (Expr.mul b (a.deriv x)) (Expr.mul a (b.deriv x))).value ρ =
      some (g (ρ x) * d - f (ρ x) * c) := value_binary_of hl hr
  refine ⟨_, value_div_of hn (value_square hvb) (pow_ne_zero 2 hg0), ?_⟩
  -- the divisor stays away from zero near the point, so the quotient is defined there
  have hq : ∀ᶠ t in 𝓝 (ρ x), BinOp.div.real? (f t) (g t) = some (f t / g t) := by
    filter_upwards [hgd.continuousAt.eventually_ne hg0] with t ht
    exact if_neg ht
  refine .binary hf hg hq ((hfd.div hgd hg0).congr_deriv ?_)
  ring

theorem DerivedAt.power {a b : Expr} (ha : a.DerivedAt x ρ) (hb : b.DerivedAt x ρ)
    (hpos : ∀ v ∈ a.value ρ, 0 < v) : (binary .pow a b).DerivedAt x ρ := by
  obtain ⟨d, hd, f, hf, hfd⟩ := ha
  obtain ⟨c, hc, g, hg, hgd⟩ := hb
  have hva := value_of_eventually hf
  have hvb := value_of_eventually hg
  have hf0 : 0 < f (ρ x) := hpos _ hva
  have hp : (Expr.power a b).value ρ = some (f (ρ x) ^ g (ρ x)) := by
    rw [Expr.power, value_binary_of hva hvb]
    exact realPow?_of_pos hf0 _
  have hlog : (call .log a).value ρ = some (Real.log (f (ρ x))) := value_call_of hva hf0
  have hl : (Expr.mul (b.deriv x) (call .log a)).value ρ = some (c * Real.log (f (ρ x))) :=
    value_binary_of hc hlog
  have hn : (Expr.mul b (a.deriv x)).value ρ = some (g (ρ x) * d) := value_binary_of hvb hd
  have hr := value_div_of hn hva hf0.ne'
  have hsum : (Expr.add (Expr.mul (b.deriv x) (call .log a))
      (Expr.div (Expr.mul b (a.deriv x)) a)).value ρ =
      some (c * Real.log (f (ρ x)) + g (ρ x) * d / f (ρ x)) := value_binary_of hl hr
  refine ⟨_, value_binary_of hp hsum, ?_⟩
  -- the base stays positive near the point
  have hq : ∀ᶠ t in 𝓝 (ρ x), BinOp.pow.real? (f t) (g t) = some (f t ^ g t) := by
    filter_upwards [hfd.continuousAt.eventually (eventually_gt_nhds hf0)] with t ht
    exact realPow?_of_pos ht _
  -- the rule divides by the base where the derivative of a power has the exponent less one
  refine .binary hf hg hq ((hfd.rpow hgd hf0).congr_deriv ?_)
  rw [Real.rpow_sub_one hf0.ne']
  ring

theorem DerivedAt.call {h : Fn} {a : Expr} (ha : a.DerivedAt x ρ)
    (hs : ∀ v ∈ a.value ρ, h.SmoothAt v) : (call h a).DerivedAt x ρ := by
  obtain ⟨d, hd, f, hf, hfd⟩ := ha
  have hva := value_of_eventually hf
  have hsm : h.SmoothAt (f (ρ x)) := hs _ hva
  refine ⟨_, value_binary_of (value_outer h hva hsm) hd, fun t => h.toReal (f t), ?_, ?_⟩
  · filter_upwards [hf, hfd.continuousAt.eventually (h.eventually_domain hsm)] with t ht hdom
    exact value_call_of ht hdom
  · exact (h.hasDerivAt_toReal hsm).comp (ρ x) hfd

/-! ## All expressions -/

/-- The expression is made of finite constants, variables and known functions, and at the point every
operation in it has its operands where it can be differentiated. -/
def Regular (ρ : String → ℝ) : Expr → Prop
  | const c => c.isFinite = true
  | var _ => True
  | neg a => a.Regular ρ
  | binary .add a b | binary .sub a b | binary .mul a b => a.Regular ρ ∧ b.Regular ρ
  | binary .div a b => a.Regular ρ ∧ b.Regular ρ ∧ ∀ v ∈ b.value ρ, v ≠ 0
  | binary .pow a b | powCall a b => a.Regular ρ ∧ b.Regular ρ ∧ ∀ v ∈ a.value ρ, 0 < v
  | call f a => a.Regular ρ ∧ ∀ v ∈ a.value ρ, f.SmoothAt v
  | unknown _ _ _ | blank | pair _ _ | datum _ | oddVar _ => False

theorem Regular.derivedAt {e : Expr} (h : e.Regular ρ) : e.DerivedAt x ρ := by
  induction e with
  | const c => exact derivedAt_const h
  | var y => exact derivedAt_var y
  | neg a iha => exact (iha h).neg
  | binary op a b iha ihb =>
    cases op with
    | add => exact (iha h.1).add (ihb h.2)
    | sub => exact (iha h.1).sub (ihb h.2)
    | mul => exact (iha h.1).mul (ihb h.2)
    | div => exact (iha h.1).div (ihb h.2.1) h.2.2
    | pow => exact (iha h.1).power (ihb h.2.1) h.2.2
  | call f a iha => exact (iha h.1).call h.2
  | powCall a b iha ihb => exact (iha h.1).power (ihb h.2.1) h.2.2
  | unknown | blank | pair | datum | oddVar => exact h.elim

theorem Regular.derivObstacle_eq_none {e : Expr} (h : e.Regular ρ) : e.derivObstacle = none := by
  induction e with
  | const | var => rfl
  | neg a iha => exact iha h
  | binary op a b iha ihb =>
    cases op with
    | add | sub | mul => simp [derivObstacle, iha h.1, ihb h.2]
    | div | pow => simp [derivObstacle, iha h.1, ihb h.2.1]
  | call f a iha => exact iha h.1
  | powCall a b iha ihb => simp [derivObstacle, iha h.1, ihb h.2.1]
  | unknown | blank | pair | datum | oddVar => exact h.elim

/-- Differentiation succeeds, and what it gives has a value at the point: the derivative of the
expression there. -/
theorem differentiate_hasPartialAt {e : Expr} (x : String) (h : e.Regular ρ) :
    ∃ e' d, e.differentiate x = .ok e' ∧ e'.value ρ = some d ∧ e.HasPartialAt x ρ d := by
  obtain ⟨d, hd, hp⟩ := h.derivedAt (x := x)
  refine ⟨e.deriv x, d, ?_, hd, hp⟩
  rw [differentiate, h.derivObstacle_eq_none]

/-- A general power over a root, where base, exponent and root are the same variable. -/
theorem differentiate_hasPartialAt_self_power :
    let e := div (power (var "x") (var "x")) (call .sqrt (var "x"))
    let ρ : String → ℝ := fun _ => 4
    e.Regular ρ ∧
      ∃ e' d, e.differentiate "x" = .ok e' ∧ e'.value ρ = some d ∧ e.HasPartialAt "x" ρ d := by
  intro e ρ
  have hx : (4 : ℝ) > 0 := four_pos
  have hs : (call .sqrt (var "x")).value ρ = some √4 := value_call_of (value_var ρ "x") hx.le
  have h : e.Regular ρ := by
    refine ⟨⟨trivial, trivial, ?_⟩, ⟨trivial, ?_⟩, ?_⟩
    · rintro v ⟨⟩
      exact hx
    · rintro v ⟨⟩
      exact hx
    · intro v hv
      obtain rfl : √4 = v := Option.some.inj (hs.symm.trans hv)
      exact (Real.sqrt_pos.mpr hx).ne'
  exact ⟨h, differentiate_hasPartialAt "x" h⟩

end Expr

end Nabla

end
