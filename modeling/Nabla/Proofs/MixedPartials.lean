import Nabla.Proofs.FieldOperators
import Nabla.Proofs.HigherDerivatives

/-!
# Mixed partial derivatives

The two second derivatives of a tree look nothing alike, but every rule is linear in the derivatives of
the operands, so their values are put together from the same numbers. For a function of one argument
the derivative of the derivative follows that of the argument in every direction alike.
-/

noncomputable section

namespace Nabla

namespace Expr

variable {ρ : String → ℝ} {x y : String} {a b : Expr} {v w : ℝ}

theorem value_unique (h : a.value ρ = some v) (h' : a.value ρ = some w) : v = w :=
  Option.some.inj (h.symm.trans h')

/-- A tree has a value at the point, and so has its derivative. -/
structure HasSlope (e : Expr) (x : String) (ρ : String → ℝ) (s p : ℝ) : Prop where
  value : e.value ρ = some s
  slope : (e.deriv x).value ρ = some p

theorem value_deriv_neg (h : ((neg a).deriv x).value ρ = some v) :
    ∃ p, (a.deriv x).value ρ = some p ∧ v = -p := by
  rw [deriv, value_neg, Option.map_eq_some_iff] at h
  obtain ⟨p, hp, rfl⟩ := h
  exact ⟨p, hp, rfl⟩

theorem value_add (h : (add a b).value ρ = some v) :
    ∃ s t, a.value ρ = some s ∧ b.value ρ = some t ∧ v = s + t := by
  obtain ⟨s, t, hs, ht, hv⟩ := value_binary_eq_some_iff.mp h
  exact ⟨s, t, hs, ht, (Option.some.inj hv).symm⟩

theorem value_deriv_add (h : ((binary .add a b).deriv x).value ρ = some v) :
    ∃ p q, (a.deriv x).value ρ = some p ∧ (b.deriv x).value ρ = some q ∧ v = p + q :=
  value_add h

theorem value_deriv_sub (h : ((binary .sub a b).deriv x).value ρ = some v) :
    ∃ p q, (a.deriv x).value ρ = some p ∧ (b.deriv x).value ρ = some q ∧ v = p - q := by
  obtain ⟨p, q, hp, hq, hv⟩ := value_binary_eq_some_iff.mp h
  exact ⟨p, q, hp, hq, (Option.some.inj hv).symm⟩

theorem value_mul (h : (mul a b).value ρ = some v) :
    ∃ s t, a.value ρ = some s ∧ b.value ρ = some t ∧ v = s * t := by
  obtain ⟨s, t, hs, ht, hv⟩ := value_binary_eq_some_iff.mp h
  exact ⟨s, t, hs, ht, (Option.some.inj hv).symm⟩

theorem value_div (h : (div a b).value ρ = some v) :
    ∃ s t, a.value ρ = some s ∧ b.value ρ = some t ∧ t ≠ 0 ∧ v = s / t := by
  obtain ⟨s, t, hs, ht, hv⟩ := value_binary_eq_some_iff.mp h
  rw [BinOp.real?] at hv
  split_ifs at hv with h0
  exact ⟨s, t, hs, ht, h0, (Option.some.inj hv).symm⟩

theorem value_deriv_mul (h : ((binary .mul a b).deriv x).value ρ = some v) :
    ∃ s t p q, a.HasSlope x ρ s p ∧ b.HasSlope x ρ t q ∧ v = s * q + t * p := by
  obtain ⟨_, _, hl, hr, hv⟩ := value_binary_eq_some_iff.mp h
  obtain ⟨s, q, hs, hq, rfl⟩ := value_mul hl
  obtain ⟨t, p, ht, hp, rfl⟩ := value_mul hr
  exact ⟨s, t, p, q, ⟨hs, hp⟩, ⟨ht, hq⟩, (Option.some.inj hv).symm⟩

theorem value_deriv_div (h : ((binary .div a b).deriv x).value ρ = some v) :
    ∃ s t p q, a.HasSlope x ρ s p ∧ b.HasSlope x ρ t q ∧ t ≠ 0 ∧ v = (t * p - s * q) / t ^ 2 := by
  obtain ⟨_, m, hn, hm, hm0, rfl⟩ := value_div h
  obtain ⟨_, _, hl, hr, hv⟩ := value_binary_eq_some_iff.mp hn
  obtain ⟨t, p, ht, hp, rfl⟩ := value_mul hl
  obtain ⟨s, q, hs, hq, rfl⟩ := value_mul hr
  obtain rfl := value_unique hm (value_square ht)
  refine ⟨s, t, p, q, ⟨hs, hp⟩, ⟨ht, hq⟩, ?_, ?_⟩
  · exact fun h0 => hm0 (by rw [h0]; ring)
  · rw [← Option.some.inj hv]

theorem value_powerRule {f g f' g' : Expr} (h : (powerRule f g f' g').value ρ = some v) :
    ∃ s t p q, f.value ρ = some s ∧ g.value ρ = some t ∧ f'.value ρ = some p ∧ g'.value ρ = some q ∧
      0 < s ∧ v = s ^ t * (q * Real.log s + t * p / s) := by
  obtain ⟨_, _, hpow, hsum, rfl⟩ := value_mul h
  obtain ⟨_, _, hl, hr, hv⟩ := value_binary_eq_some_iff.mp hsum
  obtain ⟨q, _, hq, hlog, rfl⟩ := value_mul hl
  obtain ⟨_, s, hn, hs, -, rfl⟩ := value_div hr
  obtain ⟨t, p, ht, hp, rfl⟩ := value_mul hn
  obtain ⟨s', hs', hreal⟩ := value_call_eq_some_iff.mp hlog
  obtain rfl := value_unique hs hs'
  obtain ⟨hpos, rfl⟩ := Fn.real?_eq_some_iff.mp hreal
  have hpow' : (power f g).value ρ = some (s ^ t) :=
    (value_binary_of hs ht).trans (realPow?_of_pos hpos t)
  obtain rfl := value_unique hpow hpow'
  refine ⟨s, t, p, q, hs, ht, hp, hq, hpos, ?_⟩
  rw [← Option.some.inj hv]
  rfl

theorem value_deriv_power (h : ((binary .pow a b).deriv x).value ρ = some v) :
    ∃ s t p q, a.HasSlope x ρ s p ∧ b.HasSlope x ρ t q ∧ 0 < s ∧
      v = s ^ t * (q * Real.log s + t * p / s) := by
  obtain ⟨s, t, p, q, hs, ht, hp, hq, hpos, hv⟩ := value_powerRule h
  exact ⟨s, t, p, q, ⟨hs, hp⟩, ⟨ht, hq⟩, hpos, hv⟩

/-! ## Functions of one argument -/

/-- The derivative of the second tree is a multiple of that of the first, in every direction the
same. -/
def Follows (ρ : String → ℝ) (u t : Expr) : Prop :=
  ∃ k, ∀ x d w, (u.deriv x).value ρ = some d → (t.deriv x).value ρ = some w → w = k * d

/-- The value of a tree, and zero where it has none. -/
def total (ρ : String → ℝ) (e : Expr) : ℝ := (e.value ρ).getD 0

theorem total_of (h : a.value ρ = some v) : a.total ρ = v := by
  rw [total, h, Option.getD_some]

section Follows

variable {u : Expr}

theorem Follows.refl (u : Expr) : Follows ρ u u := by
  refine ⟨1, fun x d w hd hw => ?_⟩
  rw [one_mul, value_unique hw hd]

theorem follows_const (c : Float) : Follows ρ u (const c) := by
  refine ⟨0, fun x d w _ hw => ?_⟩
  rw [zero_mul, value_unique hw (value_zero ρ)]

theorem Follows.neg (h : Follows ρ u a) : Follows ρ u (neg a) := by
  obtain ⟨k, hk⟩ := h
  refine ⟨-k, fun x d w hd hw => ?_⟩
  obtain ⟨p, hp, rfl⟩ := value_deriv_neg hw
  rw [hk x d p hd hp, neg_mul]

theorem Follows.add (ha : Follows ρ u a) (hb : Follows ρ u b) : Follows ρ u (add a b) := by
  obtain ⟨j, hj⟩ := ha
  obtain ⟨k, hk⟩ := hb
  refine ⟨j + k, fun x d w hd hw => ?_⟩
  obtain ⟨p, q, hp, hq, rfl⟩ := value_deriv_add hw
  rw [hj x d p hd hp, hk x d q hd hq, add_mul]

theorem Follows.sub (ha : Follows ρ u a) (hb : Follows ρ u b) : Follows ρ u (sub a b) := by
  obtain ⟨j, hj⟩ := ha
  obtain ⟨k, hk⟩ := hb
  refine ⟨j - k, fun x d w hd hw => ?_⟩
  obtain ⟨p, q, hp, hq, rfl⟩ := value_deriv_sub hw
  rw [hj x d p hd hp, hk x d q hd hq, sub_mul]

-- The values of the operands are the same in every direction.
theorem Follows.mul (ha : Follows ρ u a) (hb : Follows ρ u b) : Follows ρ u (mul a b) := by
  obtain ⟨j, hj⟩ := ha
  obtain ⟨k, hk⟩ := hb
  refine ⟨a.total ρ * k + b.total ρ * j, fun x d w hd hw => ?_⟩
  obtain ⟨s, t, p, q, ⟨hs, hp⟩, ⟨ht, hq⟩, rfl⟩ := value_deriv_mul hw
  rw [hj x d p hd hp, hk x d q hd hq, total_of hs, total_of ht]
  ring

theorem Follows.div (ha : Follows ρ u a) (hb : Follows ρ u b) : Follows ρ u (div a b) := by
  obtain ⟨j, hj⟩ := ha
  obtain ⟨k, hk⟩ := hb
  refine ⟨(b.total ρ * j - a.total ρ * k) / b.total ρ ^ 2, fun x d w hd hw => ?_⟩
  obtain ⟨s, t, p, q, ⟨hs, hp⟩, ⟨ht, hq⟩, -, rfl⟩ := value_deriv_div hw
  rw [hj x d p hd hp, hk x d q hd hq, total_of hs, total_of ht]
  ring

theorem Follows.power (ha : Follows ρ u a) (hb : Follows ρ u b) : Follows ρ u (power a b) := by
  obtain ⟨j, hj⟩ := ha
  obtain ⟨k, hk⟩ := hb
  refine ⟨a.total ρ ^ b.total ρ * (k * Real.log (a.total ρ) + b.total ρ * j / a.total ρ),
    fun x d w hd hw => ?_⟩
  obtain ⟨s, t, p, q, ⟨hs, hp⟩, ⟨ht, hq⟩, -, rfl⟩ := value_deriv_power hw
  rw [hj x d p hd hp, hk x d q hd hq, total_of hs, total_of ht]
  ring

theorem Follows.call (h : Follows ρ u a) (f : Fn) : Follows ρ u (call f a) := by
  obtain ⟨k, hk⟩ := h
  refine ⟨(outer f a).total ρ * k, fun x d w hd hw => ?_⟩
  obtain ⟨s, p, hs, hp, rfl⟩ := value_mul hw
  rw [hk x d p hd hp, total_of hs, mul_assoc]

theorem follows_outer (f : Fn) (u : Expr) : Follows ρ u (outer f u) := by
  have hu := Follows.refl (ρ := ρ) u
  have hone : Follows ρ u one := follows_const 1
  have htwo : Follows ρ u two := follows_const 2
  cases f with
  | log => exact hone.div hu
  | exp => exact hu.call .exp
  | abs => exact hu.div (hu.call .abs)
  | sqrt => exact hone.div (htwo.mul (hu.call .sqrt))
  | sin => exact hu.call .cos
  | cos => exact (hu.call .sin).neg
  | tan => exact hone.div ((hu.call .cos).power htwo)
  | asin => exact hone.div ((hone.sub (hu.power htwo)).call .sqrt)
  | acos => exact (hone.div ((hone.sub (hu.power htwo)).call .sqrt)).neg
  | atan => exact hone.div (hone.add (hu.power htwo))

end Follows

/-! ## Both orders -/

/-- The value of a tree, its two derivatives, and the second derivative that is taken with respect to
`x` first. -/
structure Jet where
  value : ℝ
  dx : ℝ
  dy : ℝ
  dxy : ℝ

def Jet.swap (j : Jet) : Jet := ⟨j.value, j.dy, j.dx, j.dxy⟩

structure HasJet (e : Expr) (x y : String) (ρ : String → ℝ) (j : Jet) : Prop where
  value : e.value ρ = some j.value
  dx : (e.deriv x).value ρ = some j.dx
  dy : (e.deriv y).value ρ = some j.dy
  dxy : ((e.deriv x).deriv y).value ρ = some j.dxy

/-- The two second derivatives have the same value wherever both have one. -/
def Symmetric (e : Expr) (x y : String) (ρ : String → ℝ) : Prop :=
  ∀ v w, ((e.deriv x).deriv y).value ρ = some v → ((e.deriv y).deriv x).value ρ = some w → v = w

theorem HasJet.eq_swap {j k : Jet} (h : a.HasJet x y ρ j) (h' : a.HasJet y x ρ k)
    (hs : a.Symmetric x y ρ) : k = j.swap := by
  obtain ⟨value, dx, dy, dxy⟩ := k
  obtain rfl := value_unique h.value h'.value
  obtain rfl := value_unique h.dx h'.dy
  obtain rfl := value_unique h.dy h'.dx
  obtain rfl := hs _ _ h.dxy h'.dxy
  rfl

theorem jets_of_mul (h : (((binary .mul a b).deriv x).deriv y).value ρ = some v) :
    ∃ j k, a.HasJet x y ρ j ∧ b.HasJet x y ρ k ∧
      v = j.value * k.dxy + k.dx * j.dy + (k.value * j.dxy + j.dx * k.dy) := by
  obtain ⟨_, _, hl, hr, rfl⟩ := value_deriv_add h
  obtain ⟨s, q, sy, qy, ha, hbx, rfl⟩ := value_deriv_mul hl
  obtain ⟨t, p, ty, py, hb, hax, rfl⟩ := value_deriv_mul hr
  exact ⟨⟨s, p, sy, py⟩, ⟨t, q, ty, qy⟩, ⟨ha.value, hax.value, ha.slope, hax.slope⟩,
    ⟨hb.value, hbx.value, hb.slope, hbx.slope⟩, rfl⟩

theorem jets_of_div (h : (((binary .div a b).deriv x).deriv y).value ρ = some v) :
    ∃ j k, a.HasJet x y ρ j ∧ b.HasJet x y ρ k ∧ 0 < k.value ∧
      v = (k.value ^ 2 * (k.value * j.dxy + j.dx * k.dy - (j.value * k.dxy + k.dx * j.dy)) -
        (k.value * j.dx - j.value * k.dx) * (k.value ^ 2 * (2 * k.dy / k.value))) /
          (k.value ^ 2) ^ 2 := by
  obtain ⟨n, m, ny, my, hn, hm, -, rfl⟩ := value_deriv_div h
  obtain ⟨_, _, hl, hr, rfl⟩ := value_deriv_sub hn.slope
  obtain ⟨t, p, ty, py, hb, hax, rfl⟩ := value_deriv_mul hl
  obtain ⟨s, q, sy, qy, ha, hbx, rfl⟩ := value_deriv_mul hr
  -- The square in the quotient rule is a power, so its derivative has a logarithm of the divisor.
  obtain ⟨t', c, ty', c', hb', hc, hpos, rfl⟩ := value_deriv_power hm.slope
  obtain rfl := value_unique hb.value hb'.value
  obtain rfl := value_unique hb.slope hb'.slope
  obtain rfl := value_unique hc.value (value_two ρ)
  obtain rfl := value_unique hc.slope (value_zero ρ)
  obtain rfl := value_unique hm.value (value_square hb.value)
  have hn' : (Expr.sub (.mul b (a.deriv x)) (.mul a (b.deriv x))).value ρ = some (t * p - s * q) :=
    value_binary_of (value_binary_of hb.value hax.value) (value_binary_of ha.value hbx.value)
  obtain rfl := value_unique hn.value hn'
  refine ⟨⟨s, p, sy, py⟩, ⟨t, q, ty, qy⟩, ⟨ha.value, hax.value, ha.slope, hax.slope⟩,
    ⟨hb.value, hbx.value, hb.slope, hbx.slope⟩, hpos, ?_⟩
  rw [Real.rpow_two, zero_mul, zero_add]

theorem jets_of_power (h : (((binary .pow a b).deriv x).deriv y).value ρ = some v) :
    ∃ j k, a.HasJet x y ρ j ∧ b.HasJet x y ρ k ∧ 0 < j.value ∧
      v = j.value ^ k.value * (k.dx * (1 / j.value * j.dy) + Real.log j.value * k.dxy +
        (j.value * (k.value * j.dxy + j.dx * k.dy) - k.value * j.dx * j.dy) / j.value ^ 2) +
        (k.dx * Real.log j.value + k.value * j.dx / j.value) *
          (j.value ^ k.value * (k.dy * Real.log j.value + k.value * j.dy / j.value)) := by
  obtain ⟨_, _, _, _, hpow, hsum, rfl⟩ := value_deriv_mul h
  obtain ⟨s, t, sy, ty, ha, hb, hpos, rfl⟩ := value_deriv_power hpow.slope
  obtain ⟨_, _, hl, hr, rfl⟩ := value_deriv_add hsum.slope
  obtain ⟨q, _, qy, _, hbx, hlog, rfl⟩ := value_deriv_mul hl
  obtain ⟨_, s', _, sy', hn, ha', -, rfl⟩ := value_deriv_div hr
  obtain ⟨t', p, ty', py, hb', hax, rfl⟩ := value_deriv_mul hn.slope
  obtain rfl := value_unique ha.value ha'.value
  obtain rfl := value_unique ha.slope ha'.slope
  obtain rfl := value_unique hb.value hb'.value
  obtain rfl := value_unique hb.slope hb'.slope
  have hinv : (Expr.div one a).value ρ = some (1 / s) := value_div_of (value_one ρ) ha.value hpos.ne'
  have hlog' : (call .log a).value ρ = some (Real.log s) := value_call_of ha.value hpos
  have hn' : (Expr.mul b (a.deriv x)).value ρ = some (t * p) := value_binary_of hb.value hax.value
  obtain rfl := value_unique hlog.value hlog'
  obtain rfl := value_unique hlog.slope (value_binary_of hinv ha.slope)
  obtain rfl := value_unique hn.value hn'
  obtain rfl := value_unique hsum.value
    (value_binary_of (value_binary_of hbx.value hlog') (value_div_of hn' ha.value hpos.ne'))
  obtain rfl := value_unique hpow.value
    ((value_binary_of ha.value hb.value).trans (realPow?_of_pos hpos t))
  exact ⟨⟨s, p, sy, py⟩, ⟨t, q, ty, qy⟩, ⟨ha.value, hax.value, ha.slope, hax.slope⟩,
    ⟨hb.value, hbx.value, hb.slope, hbx.slope⟩, hpos, rfl⟩

theorem symmetric_mul (ha : a.Symmetric x y ρ) (hb : b.Symmetric x y ρ) :
    (binary .mul a b).Symmetric x y ρ := by
  intro v w hv hw
  obtain ⟨j, k, hj, hk, rfl⟩ := jets_of_mul hv
  obtain ⟨j', k', hj', hk', rfl⟩ := jets_of_mul hw
  obtain rfl := hj.eq_swap hj' ha
  obtain rfl := hk.eq_swap hk' hb
  simp only [Jet.swap]
  ring

theorem symmetric_div (ha : a.Symmetric x y ρ) (hb : b.Symmetric x y ρ) :
    (binary .div a b).Symmetric x y ρ := by
  intro v w hv hw
  obtain ⟨j, k, hj, hk, hpos, rfl⟩ := jets_of_div hv
  obtain ⟨j', k', hj', hk', -, rfl⟩ := jets_of_div hw
  obtain rfl := hj.eq_swap hj' ha
  obtain rfl := hk.eq_swap hk' hb
  simp only [Jet.swap]
  field_simp
  ring

theorem symmetric_power (ha : a.Symmetric x y ρ) (hb : b.Symmetric x y ρ) :
    (binary .pow a b).Symmetric x y ρ := by
  intro v w hv hw
  obtain ⟨j, k, hj, hk, hpos, rfl⟩ := jets_of_power hv
  obtain ⟨j', k', hj', hk', -, rfl⟩ := jets_of_power hw
  obtain rfl := hj.eq_swap hj' ha
  obtain rfl := hk.eq_swap hk' hb
  simp only [Jet.swap]
  field_simp
  ring

theorem symmetric_call (f : Fn) (ha : a.Symmetric x y ρ) : (call f a).Symmetric x y ρ := by
  intro v w hv hw
  obtain ⟨s, ax, sy, axy, hs, hax, rfl⟩ := value_deriv_mul hv
  obtain ⟨s', ay, sx, ayx, hs', hay, rfl⟩ := value_deriv_mul hw
  obtain ⟨k, hk⟩ := follows_outer (ρ := ρ) f a
  obtain rfl := value_unique hs.value hs'.value
  rw [ha axy ayx hax.slope hay.slope, hk y ay sy hay.value hs.slope, hk x ax sx hax.value hs'.slope]
  ring

theorem symmetric (e : Expr) (x y : String) (ρ : String → ℝ) : e.Symmetric x y ρ := by
  induction e with
  | const | oddVar =>
    intro v w hv hw
    exact value_unique hv hw
  | var z =>
    intro v w hv hw
    have hzero : ∀ x y, (((var z).deriv x).deriv y) = zero := by
      intro x y
      rw [deriv]
      split_ifs <;> rfl
    rw [hzero] at hv hw
    exact value_unique hv hw
  | neg a iha =>
    intro v w hv hw
    obtain ⟨p, hp, rfl⟩ := value_deriv_neg hv
    obtain ⟨q, hq, rfl⟩ := value_deriv_neg hw
    rw [iha p q hp hq]
  | binary op a b iha ihb =>
    cases op with
    | add =>
      intro v w hv hw
      obtain ⟨p, q, hp, hq, rfl⟩ := value_deriv_add hv
      obtain ⟨p', q', hp', hq', rfl⟩ := value_deriv_add hw
      rw [iha p p' hp hp', ihb q q' hq hq']
    | sub =>
      intro v w hv hw
      obtain ⟨p, q, hp, hq, rfl⟩ := value_deriv_sub hv
      obtain ⟨p', q', hp', hq', rfl⟩ := value_deriv_sub hw
      rw [iha p p' hp hp', ihb q q' hq hq']
    | mul => exact symmetric_mul iha ihb
    | div => exact symmetric_div iha ihb
    | pow => exact symmetric_power iha ihb
  | call f a iha => exact symmetric_call f iha
  | powCall a b iha ihb => exact symmetric_power iha ihb
  -- An unknown function is passed over.
  | unknown n a rest iha _ => exact iha
  -- The other nodes are their own derivatives and have no value.
  | blank | pair | datum =>
    intro v w hv
    cases hv

end Expr

/-! ## Gradients -/

namespace Field

/-- The entry of a matrix in a row and a column. -/
def element? (rows : List (List Expr)) (i j : Nat) : Option Expr := rows[i]?.bind (·[j]?)

theorem jacobian_ofPartials {e : Expr} (h : e.obstacle = none) (ps : List String) (log : LogId) :
    (ofPartials ps e log).jacobian =
      .ok (ps.map fun p => ps.map fun q => (e.deriv p).deriv q) := by
  have hfinished : ∀ d ∈ (ofPartials ps e log).bodies, d.obstacle = none :=
    List.forall_mem_map.mpr fun p _ => Expr.finished_deriv p h
  rw [jacobian_of_finished hfinished]
  simp [ofPartials]

theorem element?_of_lt {e : Expr} {ps : List String} {i j : Nat} (hi : i < ps.length)
    (hj : j < ps.length) :
    element? (ps.map fun p => ps.map fun q => (e.deriv p).deriv q) i j =
      some ((e.deriv ps[i]).deriv ps[j]) := by
  simp [element?, hi, hj]

theorem value_rotation {e : Expr} {x y : String} {ρ : String → ℝ} {v : ℝ}
    (h : (Expr.sub ((e.deriv x).deriv y) ((e.deriv y).deriv x)).value ρ = some v) : v = 0 := by
  obtain ⟨p, q, hp, hq, hv⟩ := Expr.value_binary_eq_some_iff.mp h
  rw [e.symmetric x y ρ p q hp hq] at hv
  simpa [BinOp.real?] using (Option.some.inj hv).symm

theorem curl_ofPartials {e : Expr} (h : e.obstacle = none) {ps : List String} (hps : ps.length = 3)
    (log : LogId) (b : LogBook) :
    ∃ G, (ofPartials ps e log).curl.run.run b = (.ok G, b) ∧ G.bodies.length = 3 ∧
      ∀ c ∈ G.bodies, ∀ ρ v, c.value ρ = some v → v = 0 := by
  obtain ⟨x, y, z, rfl⟩ := List.length_eq_three.mp hps
  have hd : ∀ p, (e.deriv p).obstacle = none := fun p => Expr.finished_deriv p h
  refine ⟨_, curl_three (hd x) (hd y) (hd z) b, rfl, ?_⟩
  show ∀ c ∈ rotations (e.deriv x) (e.deriv y) (e.deriv z) x y z, _
  simp only [rotations, List.forall_mem_cons]
  exact ⟨fun ρ v => value_rotation, fun ρ v => value_rotation, fun ρ v => value_rotation,
    fun _ hc => nomatch hc⟩

end Field

/-- The entries of the Jacobian of a gradient that stand opposite each other have the same value
wherever both have one, so the curl of a gradient is zero wherever it has a value. -/
theorem mixed_partials_agree {e : Expr} (h : e.obstacle = none) (ps : List String) (log : LogId)
    (b : LogBook) :
    ∃ F rows, (Field.gradient ⟨ps, .scalar e⟩ log).run.run b = (.ok F, b) ∧ F.jacobian = .ok rows ∧
      (∀ i j, i < ps.length → j < ps.length →
        ∃ d d', Field.element? rows i j = some d ∧ Field.element? rows j i = some d' ∧
          ∀ ρ v w, d.value ρ = some v → d'.value ρ = some w → v = w) ∧
      (ps.length = 3 → ∃ G, F.curl.run.run b = (.ok G, b) ∧ G.bodies.length = 3 ∧
        ∀ c ∈ G.bodies, ∀ ρ v, c.value ρ = some v → v = 0) := by
  refine ⟨_, _, Field.gradient_scalar h ps log b, Field.jacobian_ofPartials h ps log, ?_, ?_⟩
  · intro i j hi hj
    refine ⟨_, _, Field.element?_of_lt hi hj, Field.element?_of_lt hj hi, ?_⟩
    exact fun ρ v w hv hw => e.symmetric ps[i] ps[j] ρ v w hv hw
  · exact fun hps => Field.curl_ofPartials h hps log b

/-- A general power of one variable by another: both entries have a value, and it is the same. -/
theorem mixed_partials_agree_power :
    let e := Expr.power (.var "x") (.var "y")
    let ρ : String → ℝ := fun _ => 2
    ∃ F rows d d' v, (Field.gradient ⟨["x", "y", "z"], .scalar e⟩ 0).run.run {} = (.ok F, {}) ∧
      F.jacobian = .ok rows ∧ Field.element? rows 0 1 = some d ∧ Field.element? rows 1 0 = some d' ∧
      d.value ρ = some v ∧ d'.value ρ = some v := by
  intro e ρ
  have hx : (Expr.var "x").value ρ = some 2 := Expr.value_var ρ "x"
  have hrobust : e.Robust ρ := ⟨trivial, trivial, Expr.forall_mem_value hx two_pos⟩
  have hvalue : ∀ x y, ∃ v, ((e.deriv x).deriv y).value ρ = some v :=
    fun x y => hrobust.deriv.deriv.regular.exists_value
  obtain ⟨F, rows, hF, hrows, hentries, -⟩ :=
    mixed_partials_agree (e := e) rfl ["x", "y", "z"] 0 {}
  have hgradient := Field.gradient_scalar (e := e) rfl ["x", "y", "z"] 0 {}
  obtain rfl : Field.ofPartials ["x", "y", "z"] e 0 = F :=
    Except.ok.inj (congrArg Prod.fst (hgradient.symm.trans hF))
  obtain rfl := Except.ok.inj ((Field.jacobian_ofPartials rfl _ _).symm.trans hrows)
  obtain ⟨d, d', hd, hd', hsame⟩ := hentries 0 1 (by decide) (by decide)
  obtain rfl : (e.deriv "x").deriv "y" = d := Option.some.inj hd
  obtain rfl : (e.deriv "y").deriv "x" = d' := Option.some.inj hd'
  obtain ⟨v, hv⟩ := hvalue "x" "y"
  obtain ⟨w, hw⟩ := hvalue "y" "x"
  obtain rfl := hsame ρ v w hv hw
  exact ⟨_, _, _, _, v, hF, hrows, hd, hd', hv, hw⟩

end Nabla

end
