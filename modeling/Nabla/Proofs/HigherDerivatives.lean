import Nabla.Proofs.Differentiation
import Nabla.Proofs.Vocabulary

/-!
# Higher derivatives

The rules write a square as a power, and the rule for a power takes the logarithm of the base. So
where a divisor is negative a quotient has a derivative, but the second one as a tree has no value.
The points where this does not happen are described exactly: there every derivative has a value, and
elsewhere none from the second on.
-/

noncomputable section

namespace Nabla

namespace Fn

/-- Where all derivatives of a function have values, as the rules write them. -/
def RobustAt : Fn → ℝ → Prop
  | log, u | sqrt, u | atan, u => 0 < u
  | abs, u => u ≠ 0
  | tan, u => 0 < Real.cos u
  | asin, u | acos, u => 0 < u ∧ u < 1
  | exp, _ | sin, _ | cos, _ => True

theorem RobustAt.smoothAt {f : Fn} {u : ℝ} (h : f.RobustAt u) : f.SmoothAt u := by
  cases f with
  | log | sqrt | abs => exact h
  | tan => exact (show 0 < Real.cos u from h).ne'
  | asin | acos => exact ⟨by linarith [h.1], h.2⟩
  | exp | sin | cos | atan => trivial

end Fn

namespace Expr

variable {ρ : String → ℝ} {x : String}

/-- As `Regular`, but every divisor is positive and so is everything that a rule squares. -/
def Robust (ρ : String → ℝ) : Expr → Prop
  | const c => c.isFinite = true
  | var _ => True
  | neg a => a.Robust ρ
  | binary .add a b | binary .sub a b | binary .mul a b => a.Robust ρ ∧ b.Robust ρ
  | binary .div a b => a.Robust ρ ∧ b.Robust ρ ∧ ∀ v ∈ b.value ρ, 0 < v
  | binary .pow a b | powCall a b => a.Robust ρ ∧ b.Robust ρ ∧ ∀ v ∈ a.value ρ, 0 < v
  | call f a => a.Robust ρ ∧ ∀ v ∈ a.value ρ, f.RobustAt v
  | unknown _ _ _ | blank | pair _ _ | datum _ | oddVar _ => False

theorem Robust.regular {e : Expr} (h : e.Robust ρ) : e.Regular ρ := by
  induction e with
  | const c => exact h
  | var y => trivial
  | neg a iha => exact iha h
  | binary op a b iha ihb =>
    cases op with
    | add | sub | mul => exact ⟨iha h.1, ihb h.2⟩
    | div => exact ⟨iha h.1, ihb h.2.1, fun v hv => (h.2.2 v hv).ne'⟩
    | pow => exact ⟨iha h.1, ihb h.2.1, h.2.2⟩
  | call f a iha => exact ⟨iha h.1, fun v hv => (h.2 v hv).smoothAt⟩
  | powCall a b iha ihb => exact ⟨iha h.1, ihb h.2.1, h.2.2⟩
  | unknown | blank | pair | datum | oddVar => exact h.elim

theorem Regular.exists_value {e : Expr} (h : e.Regular ρ) : ∃ v, e.value ρ = some v := by
  obtain ⟨d, -, f, hf, -⟩ := h.derivedAt (x := "")
  exact ⟨_, value_of_eventually hf⟩

/-! ## Where all derivatives have values -/

theorem robust_const {c : Float} {v : ℝ} (h : real? c = some v) : (const c).Robust ρ :=
  (Double.isFinite_iff c).mpr ⟨v, h⟩

theorem robust_one : one.Robust ρ := robust_const Double.real?_one

theorem robust_two : two.Robust ρ := robust_const Double.real?_two

theorem forall_mem_value {a : Expr} {u : ℝ} {P : ℝ → Prop} (ha : a.value ρ = some u) (hu : P u) :
    ∀ v ∈ a.value ρ, P v := by
  intro v hv
  rw [ha] at hv
  cases hv
  exact hu

theorem robust_square {a : Expr} {u : ℝ} (h : a.Robust ρ) (ha : a.value ρ = some u) (hu : 0 < u) :
    (power a two).Robust ρ :=
  ⟨h, robust_two, forall_mem_value ha hu⟩

theorem robust_root {a : Expr} {u : ℝ} (h : a.Robust ρ) (ha : a.value ρ = some u)
    (hu : 0 < u ∧ u < 1) : (div one (call .sqrt (sub one (power a two)))).Robust ρ := by
  have hroot : 0 < 1 - u ^ 2 := by nlinarith [hu.1, hu.2]
  have hsub : (sub one (power a two)).value ρ = some (1 - u ^ 2) :=
    value_binary_of (value_one ρ) (value_square ha)
  have hsqrt : (call .sqrt (sub one (power a two))).value ρ = some √(1 - u ^ 2) :=
    value_call_of hsub hroot.le
  refine ⟨robust_one, ⟨⟨robust_one, robust_square h ha hu.1⟩, ?_⟩, ?_⟩
  · exact forall_mem_value hsub hroot
  · exact forall_mem_value hsqrt (Real.sqrt_pos.mpr hroot)

theorem Robust.outer (f : Fn) {a : Expr} (ha : a.Robust ρ) (h : ∀ v ∈ a.value ρ, f.RobustAt v) :
    (outer f a).Robust ρ := by
  obtain ⟨u, hu⟩ := ha.regular.exists_value
  have hf : f.RobustAt u := h u hu
  cases f with
  | log => exact ⟨robust_one, ha, h⟩
  | exp => exact ⟨ha, h⟩
  | abs =>
    have habs : (call .abs a).value ρ = some |u| := value_call_of hu trivial
    exact ⟨ha, ⟨ha, h⟩, forall_mem_value habs (abs_pos.mpr hf)⟩
  | sqrt =>
    have hpos : 0 < u := hf
    have hroot : (mul two (call .sqrt a)).value ρ = some (2 * √u) :=
      value_binary_of (value_two ρ) (value_call_of hu hpos.le)
    exact ⟨robust_one, ⟨robust_two, ha, h⟩, forall_mem_value hroot (by positivity)⟩
  | sin | cos => exact ⟨ha, fun _ _ => trivial⟩
  | tan =>
    have hcos : (call .cos a).value ρ = some (Real.cos u) := value_call_of hu trivial
    have hrobust : (call .cos a).Robust ρ := ⟨ha, fun _ _ => trivial⟩
    exact ⟨robust_one, robust_square hrobust hcos hf, forall_mem_value (value_square hcos) (pow_pos hf 2)⟩
  | asin | acos => exact robust_root ha hu hf
  | atan =>
    have hsum : (add one (power a two)).value ρ = some (1 + u ^ 2) :=
      value_binary_of (value_one ρ) (value_square hu)
    exact ⟨robust_one, ⟨robust_one, robust_square ha hu hf⟩, forall_mem_value hsum (by positivity)⟩

theorem Robust.powerRule {f g f' g' : Expr} (hf : f.Robust ρ) (hg : g.Robust ρ)
    (hpos : ∀ v ∈ f.value ρ, 0 < v) (hf' : f'.Robust ρ) (hg' : g'.Robust ρ) :
    (powerRule f g f' g').Robust ρ :=
  ⟨⟨hf, hg, hpos⟩, ⟨hg', hf, hpos⟩, ⟨hg, hf'⟩, hf, hpos⟩

theorem Robust.deriv {e : Expr} (h : e.Robust ρ) : (deriv x e).Robust ρ := by
  induction e with
  | const c => exact robust_const Double.real?_zero
  | var y =>
    unfold Expr.deriv
    split_ifs
    · exact robust_one
    · exact robust_const Double.real?_zero
  | neg a iha => exact iha h
  | binary op a b iha ihb =>
    cases op with
    | add | sub => exact ⟨iha h.1, ihb h.2⟩
    | mul => exact ⟨⟨h.1, ihb h.2⟩, h.2, iha h.1⟩
    | div =>
      obtain ⟨ha, hb, hpos⟩ := h
      obtain ⟨v, hv⟩ := hb.regular.exists_value
      have hv0 : 0 < v := hpos v hv
      refine ⟨⟨⟨hb, iha ha⟩, ha, ihb hb⟩, robust_square hb hv hv0, ?_⟩
      exact forall_mem_value (value_square hv) (pow_pos hv0 2)
    | pow => exact Robust.powerRule h.1 h.2.1 h.2.2 (iha h.1) (ihb h.2.1)
  | call f a iha => exact ⟨Robust.outer f h.1 h.2, iha h.1⟩
  | powCall a b iha ihb => exact Robust.powerRule h.1 h.2.1 h.2.2 (iha h.1) (ihb h.2.1)
  | unknown | blank | pair | datum | oddVar => exact h.elim

theorem Robust.iterate_deriv {e : Expr} (h : e.Robust ρ) (n : Nat) :
    ((Expr.deriv x)^[n] e).Robust ρ := by
  induction n generalizing e with
  | zero => exact h
  | succ n ih => exact ih h.deriv

/-! ## Where they do not -/

theorem exists_value_of_child {c e : Expr} (hc : c ∈ e.children) (h : ∃ v, e.value ρ = some v) :
    ∃ v, c.value ρ = some v := by
  obtain ⟨v, hv⟩ := h
  cases e with
  | const | var | blank | datum | oddVar => exact nomatch hc
  | neg a =>
    rw [List.mem_singleton.mp hc]
    rw [value_neg, Option.map_eq_some_iff] at hv
    obtain ⟨u, hu, -⟩ := hv
    exact ⟨u, hu⟩
  | call f a =>
    rw [List.mem_singleton.mp hc]
    obtain ⟨u, hu, -⟩ := value_call_eq_some_iff.mp hv
    exact ⟨u, hu⟩
  | binary op a b | powCall a b =>
    obtain ⟨u, w, hu, hw, -⟩ := value_binary_eq_some_iff.mp hv
    have hc : c = a ∨ c = b := by simpa [children] using hc
    rcases hc with rfl | rfl
    · exact ⟨u, hu⟩
    · exact ⟨w, hw⟩
  | unknown | pair => cases hv

theorem Occurs.exists_value {c e : Expr} (hc : c.Occurs e) (h : ∃ v, e.value ρ = some v) :
    ∃ v, c.value ρ = some v :=
  Occurs.inherit (P := fun e => ∃ v, e.value ρ = some v)
    (fun _ h _ hc => exists_value_of_child hc h) hc h

theorem occurs_deriv_of_child {c e : Expr} (h : e.Over .known) (hc : c ∈ e.children) :
    (deriv x c).Occurs (deriv x e) := by
  cases e with
  | const | var | blank | datum | oddVar => exact nomatch hc
  | neg a =>
    rw [List.mem_singleton.mp hc]
    exact occurs_of_child List.mem_cons_self (.refl _)
  | call f a =>
    rw [List.mem_singleton.mp hc]
    exact (Occurs.refl _).right
  | binary op a b =>
    have hcases : c = a ∨ c = b := by simpa [children] using hc
    cases op with
    | add | sub =>
      rcases hcases with rfl | rfl
      · exact (Occurs.refl _).left
      · exact (Occurs.refl _).right
    | mul =>
      rcases hcases with rfl | rfl
      · exact (Occurs.refl _).right.right
      · exact (Occurs.refl _).right.left
    | div =>
      rcases hcases with rfl | rfl
      · exact (Occurs.refl _).right.left.left
      · exact (Occurs.refl _).right.right.left
    | pow =>
      rcases hcases with rfl | rfl
      · exact (Occurs.refl _).right.left.right.right
      · exact (Occurs.refl _).left.left.right
  | powCall a b =>
    have hcases : c = a ∨ c = b := by simpa [children] using hc
    rcases hcases with rfl | rfl
    · exact (Occurs.refl _).right.left.right.right
    · exact (Occurs.refl _).left.left.right
  -- The derivative of an unknown function keeps that of its first argument only.
  | unknown n a rest => exact (over_unknown.mp h).1.elim
  | pair a b => exact (not_over_pair h).elim

theorem Occurs.deriv {c e : Expr} (hc : c.Occurs e) (h : e.Over .known) :
    (deriv x c).Occurs (deriv x e) := by
  obtain ⟨place, hc⟩ := hc
  induction place generalizing e with
  | nil =>
    cases hc
    exact .refl _
  | cons i place ih =>
    obtain ⟨d, hd, hc⟩ := Option.bind_eq_some_iff.mp hc
    have hd := List.mem_of_getElem? hd
    exact (ih ((over_iff.mp h).2 d hd) hc).trans (occurs_deriv_of_child h hd)

theorem Occurs.iterate_deriv {c e : Expr} (hc : c.Occurs e) (h : e.Over .known) (n : Nat) :
    ((Expr.deriv x)^[n] c).Occurs ((Expr.deriv x)^[n] e) := by
  induction n generalizing c e with
  | zero => exact hc
  | succ n ih => exact ih (hc.deriv h) (over_deriv x h)

theorem occurs_log {f g : Expr} (h : (power f g).Over .known) (n : Nat) :
    (call .log f).Occurs ((deriv x)^[n + 1] (power f g)) := by
  induction n with
  | zero => exact (Occurs.refl _).right.left.right
  | succ n ih =>
    -- The derivative of a power has the power as a factor.
    have hself : (power f g).Occurs (deriv x (power f g)) := (Occurs.refl _).left
    exact ih.trans (hself.iterate_deriv (over_deriv x h) (n + 1))

theorem pos_of_power {e f g : Expr} (h : e.Over .known) (hpow : (power f g).Occurs (deriv x e))
    {n : Nat} (hn : ∃ v, ((deriv x)^[n + 2] e).value ρ = some v) : ∀ v ∈ f.value ρ, 0 < v := by
  -- The logarithm of the base stands in every later derivative.
  have hover := over_deriv x h
  have hpow' : (power f g).Over .known :=
    hpow.inherit (P := Over .known) (fun _ he => (over_iff.mp he).2) hover
  have hlog := (occurs_log (x := x) hpow' n).trans (hpow.iterate_deriv hover (n + 1))
  obtain ⟨v, hv⟩ := hlog.exists_value hn
  obtain ⟨u, hu, hv⟩ := value_call_eq_some_iff.mp hv
  exact forall_mem_value hu (Fn.real?_eq_some_iff.mp hv).1

theorem Regular.over_known {e : Expr} (h : e.Regular ρ) : e.Over .known := by
  induction e with
  | const c => exact over_const c
  | var y => exact over_var.mpr trivial
  | neg a iha => exact over_neg.mpr (iha h)
  | binary op a b iha ihb =>
    cases op with
    | add | sub | mul => exact over_binary.mpr ⟨iha h.1, ihb h.2⟩
    | div | pow => exact over_binary.mpr ⟨iha h.1, ihb h.2.1⟩
  | call f a iha => exact over_call.mpr (iha h.1)
  | powCall a b iha ihb => exact over_powCall.mpr ⟨iha h.1, ihb h.2.1⟩
  | unknown | blank | pair | datum | oddVar => exact h.elim

theorem robustAt_of_value {f : Fn} {a : Expr} (h : (call f a).Over .known) {u : ℝ}
    (hu : a.value ρ = some u) (hsm : f.SmoothAt u) {n : Nat}
    (hn : ∃ v, ((deriv x)^[n + 2] (call f a)).value ρ = some v) : f.RobustAt u := by
  cases f with
  | log | sqrt | abs => exact hsm
  | exp | sin | cos => trivial
  | tan =>
    have hpow : (power (call .cos a) two).Occurs (deriv x (call .tan a)) :=
      (Occurs.refl _).right.left
    exact pos_of_power h hpow hn _ (value_call_of hu trivial)
  | asin =>
    have hpow : (power a two).Occurs (deriv x (call .asin a)) :=
      (Occurs.refl _).right.under.right.left
    exact ⟨pos_of_power h hpow hn u hu, hsm.2⟩
  | acos =>
    have hpow : (power a two).Occurs (deriv x (call .acos a)) :=
      (occurs_of_child (e := outer .acos a) List.mem_cons_self (Occurs.refl _).right.under.right).left
    exact ⟨pos_of_power h hpow hn u hu, hsm.2⟩
  | atan =>
    have hpow : (power a two).Occurs (deriv x (call .atan a)) :=
      (Occurs.refl _).right.right.left
    exact pos_of_power h hpow hn u hu

theorem exists_value_iterate_of_child {c e : Expr} (h : e.Over .known) (hc : c ∈ e.children) {n : Nat}
    (hn : ∃ v, ((deriv x)^[n] e).value ρ = some v) : ∃ v, ((deriv x)^[n] c).value ρ = some v :=
  ((occurs_of_child hc (.refl c)).iterate_deriv h n).exists_value hn

theorem Regular.robust {e : Expr} (h : e.Regular ρ) {n : Nat}
    (hn : ∃ v, ((Expr.deriv x)^[n + 2] e).value ρ = some v) : e.Robust ρ := by
  induction e with
  | const c => exact h
  | var y => trivial
  | neg a iha =>
    exact iha h (exists_value_iterate_of_child h.over_known List.mem_cons_self hn)
  | binary op a b iha ihb =>
    have hover := h.over_known
    have ha := exists_value_iterate_of_child (c := a) hover (by simp [children]) hn
    have hb := exists_value_iterate_of_child (c := b) hover (by simp [children]) hn
    cases op with
    | add | sub | mul => exact ⟨iha h.1 ha, ihb h.2 hb⟩
    | div =>
      have hpow : (power b two).Occurs (Expr.deriv x (div a b)) := (Occurs.refl _).right
      exact ⟨iha h.1 ha, ihb h.2.1 hb, pos_of_power hover hpow hn⟩
    | pow => exact ⟨iha h.1 ha, ihb h.2.1 hb, h.2.2⟩
  | call f a iha =>
    have ha := exists_value_iterate_of_child h.over_known List.mem_cons_self hn
    refine ⟨iha h.1 ha, fun u hu => ?_⟩
    exact robustAt_of_value h.over_known hu (h.2 u hu) hn
  | powCall a b iha ihb =>
    have ha := exists_value_iterate_of_child (c := a) h.over_known (by simp [children]) hn
    have hb := exists_value_iterate_of_child (c := b) h.over_known (by simp [children]) hn
    exact ⟨iha h.1 ha, ihb h.2.1 hb, h.2.2⟩
  | unknown | blank | pair | datum | oddVar => exact h.elim

/-! ## Higher derivatives -/

theorem differentiateTimes_of_finished {e : Expr} (h : e.obstacle = none) (n : Nat) :
    differentiateTimes x n e = .ok ((deriv x)^[n] e) := by
  induction n generalizing e with
  | zero => rfl
  | succ n ih =>
    rw [differentiateTimes, differentiate_of_finished h]
    exact ih (finished_deriv x h)

/-- Differentiation never fails where the expression is smooth. The first derivative has a value
there, and the later ones have values exactly if every divisor and everything else that the rules
square is positive. -/
theorem differentiateTimes_value_iff {e : Expr} (x : String) (n : Nat) (h : e.Regular ρ) :
    ∃ e', differentiateTimes x n e = .ok e' ∧
      ((∃ v, e'.value ρ = some v) ↔ n ≤ 1 ∨ e.Robust ρ) := by
  refine ⟨(deriv x)^[n] e, differentiateTimes_of_finished (h.over_known.finished fun _ => id) n, ?_, ?_⟩
  · intro hv
    match n with
    | 0 | 1 => exact Or.inl (by omega)
    | n + 2 => exact Or.inr (h.robust hv)
  · rintro (hn | hrobust)
    · match n with
      | 0 => exact h.exists_value
      | 1 =>
        obtain ⟨d, hd, -⟩ := h.derivedAt (x := x)
        exact ⟨d, hd⟩
    · exact (hrobust.iterate_deriv n).regular.exists_value

/-- The fifth derivative of `1 / x` where `x` is positive. -/
theorem differentiateTimes_value_iff_reciprocal :
    let e := div one (var "x")
    let ρ : String → ℝ := fun _ => 2
    e.Regular ρ ∧ ∃ e' v, differentiateTimes "x" 5 e = .ok e' ∧ e'.value ρ = some v := by
  intro e ρ
  have hrobust : e.Robust ρ := ⟨robust_one, trivial, forall_mem_value (value_var ρ "x") two_pos⟩
  obtain ⟨e', he', hiff⟩ := differentiateTimes_value_iff "x" 5 hrobust.regular
  obtain ⟨v, hv⟩ := hiff.mpr (Or.inr hrobust)
  exact ⟨hrobust.regular, e', v, he', hv⟩

/-- The second derivative of `1 / x` has no value where `x` is negative. -/
theorem second_derivative_of_reciprocal :
    let e := div one (var "x")
    let ρ : String → ℝ := fun _ => -1
    e.WellFormed ∧ e.Regular ρ ∧ ∃ e', differentiateTimes "x" 2 e = .ok e' ∧ e'.value ρ = none := by
  intro e ρ
  have hx : (var "x").value ρ = some (-1) := value_var ρ "x"
  have hregular : e.Regular ρ := ⟨robust_one.regular, trivial, forall_mem_value hx (by norm_num)⟩
  refine ⟨⟨trivial, trivial⟩, hregular, _, differentiateTimes_of_finished rfl 2, ?_⟩
  rw [Option.eq_none_iff_forall_ne_some]
  intro v hv
  have hrobust : e.Robust ρ := hregular.robust (x := "x") (n := 0) ⟨v, hv⟩
  have hpos : (0 : ℝ) < -1 := hrobust.2.2 (-1) hx
  norm_num at hpos

end Expr

end Nabla

end
