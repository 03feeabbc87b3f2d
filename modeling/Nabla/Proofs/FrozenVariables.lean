import Nabla.Proofs.HigherDerivatives
import Nabla.Proofs.Transformations

/-!
# Frozen variables

For a derivative all variables but one are constants. If constants or other variables are put in their
places, it does not matter whether that is done before or after differentiating: the two trees are the
same, for every rule and so for every order.
-/

namespace Nabla

namespace Expr

variable {x : String} {σ : String → Option Expr}

/-- The variable `x` stays, and what replaces another variable is a constant or a variable other
than `x`. -/
structure Freezes (σ : String → Option Expr) (x : String) : Prop where
  kept : σ x = none
  frozen : ∀ y t, σ y = some t → (∃ c, t = const c) ∨ ∃ z, z ≠ x ∧ t = var z

theorem Freezes.deriv_getD (h : Freezes σ x) {y : String} (hy : y ≠ x) :
    deriv x ((σ y).getD (var y)) = zero := by
  cases hσ : σ y with
  | none => simp [deriv, hy]
  | some t =>
    rcases h.frozen y t hσ with ⟨c, rfl⟩ | ⟨z, hz, rfl⟩
    · rfl
    · simp [deriv, hz]

theorem subst_outer (f : Fn) (u : Expr) : (outer f u).subst σ = outer f (u.subst σ) := by
  cases f <;> rfl

theorem subst_powerRule (f g f' g' : Expr) :
    (powerRule f g f' g').subst σ =
      powerRule (f.subst σ) (g.subst σ) (f'.subst σ) (g'.subst σ) := rfl

theorem Freezes.subst_deriv (h : Freezes σ x) (e : Expr) :
    (deriv x e).subst σ = deriv x (e.subst σ) := by
  -- The rules take the parts of a node over as they are, so only the variables matter.
  induction e with
  | const | blank | pair | datum | oddVar => rfl
  | var y =>
    rw [deriv, subst]
    split_ifs with hy
    · subst hy
      simp [h.kept, deriv, one, subst]
    · rw [h.deriv_getD hy]
      rfl
  | neg a iha => simp [deriv, subst, iha]
  | binary op a b iha ihb =>
    cases op with
    | add | sub | mul | div =>
      simp [deriv, subst, add, sub, mul, div, power, two, iha, ihb]
    | pow => rw [deriv, subst_powerRule, iha, ihb, subst, deriv]
  | call f a iha =>
    rw [subst, deriv, deriv, ← subst_outer, ← iha]
    rfl
  | powCall a b iha ihb => rw [deriv, subst_powerRule, iha, ihb, subst, deriv]
  -- only the first argument is differentiated, and it is the first one after the substitution
  | unknown n a rest iha => rw [deriv, iha, subst, deriv]

theorem Freezes.subst_iterate_deriv (h : Freezes σ x) (n : Nat) (e : Expr) :
    ((deriv x)^[n] e).subst σ = (deriv x)^[n] (e.subst σ) :=
  Function.Commute.iterate_right h.subst_deriv n e

theorem Freezes.wellFormed (h : Freezes σ x) {y : String} {t : Expr} (ht : σ y = some t) :
    t.WellFormed := by
  rcases h.frozen y t ht with ⟨c, rfl⟩ | ⟨z, -, rfl⟩ <;> trivial

end Expr

namespace Value

theorem target_of_target? {v : Value} {x : String} (h : v.target? = some x) (es : List Expr) :
    v.target es = .ok x := by
  rcases target?_eq_some_iff.mp h with rfl | rfl <;> rfl

theorem differentiate_eq {e : Expr} (he : e.obstacle = none) {target order : Value} {x : String}
    {n : Nat} (hx : target.target? = some x) (hn : order.toOrder = .ok n) :
    (expr e).differentiate target order = .ok ((Expr.deriv x)^[n] e) := by
  unfold differentiate
  rw [hn]
  cases n with
  | zero => rfl
  | succ n =>
    show (do e.differentiateTimes (← target.target [e]) (n + 1)) = _
    rw [target_of_target? hx]
    exact Expr.differentiateTimes_of_finished he (n + 1)

end Value

/-- Differentiating and putting constants or other variables in the places of the frozen ones can be
done in either order: nothing fails, and the same tree comes out. -/
theorem freezing_commutes_with_differentiation {e : Expr} (he : e.WellFormed) {target order : Value}
    {x : String} {n : Nat} (hx : target.target? = some x) (hn : order.toOrder = .ok n)
    {pairs : List (Value × Value)}
    (hpairs : ∀ p ∈ pairs, ∃ y t, p.1.target? = some y ∧ p.2.toExpr = .ok t ∧ y ≠ x ∧
      ((∃ c, t = .const c) ∨ ∃ z, z ≠ x ∧ t = .var z)) (s : Session) :
    ∃ frozen d r, (Session.substitute (.expr e) pairs).run.run s = (.ok frozen, s) ∧
      (Value.expr e).differentiate target order = .ok d ∧
      (Value.expr frozen).differentiate target order = .ok r ∧
      (Session.substitute (.expr d) pairs).run.run s = (.ok r, s) := by
  have hread : ∀ p ∈ pairs, ∃ y t, p.1.target? = some y ∧ p.2.toExpr = .ok t := by
    intro p hp
    obtain ⟨y, t, hy, ht, -⟩ := hpairs p hp
    exact ⟨y, t, hy, ht⟩
  obtain ⟨σ, hrun, hfrom, -⟩ := Session.exists_substitution hread s
  have hreplaced : ∀ y t, σ y = some t → y ≠ x ∧ ((∃ c, t = .const c) ∨ ∃ z, z ≠ x ∧ t = .var z) := by
    intro y t hyt
    obtain ⟨p, hp, hy, ht⟩ := hfrom y t hyt
    obtain ⟨y', t', hy', ht', hfrozen⟩ := hpairs p hp
    obtain rfl : y' = y := Option.some.inj (hy'.symm.trans hy)
    obtain rfl : t' = t := Except.ok.inj (ht'.symm.trans ht)
    exact hfrozen
  have hσ : Expr.Freezes σ x := by
    refine ⟨?_, fun y t ht => (hreplaced y t ht).2⟩
    by_contra hne
    obtain ⟨t, ht⟩ := Option.ne_none_iff_exists'.mp hne
    exact (hreplaced x t ht).1 rfl
  have hfin := he.obstacle_eq_none
  have hwf : (e.subst σ).WellFormed := Expr.wellFormed_subst he fun y t ht => hσ.wellFormed ht
  have hd : ((Expr.deriv x)^[n] e).obstacle = none :=
    Function.Iterate.rec (fun d : Expr => d.obstacle = none) hfin
      (fun _ hd => Expr.finished_deriv x hd) n
  refine ⟨_, _, _, ?_, Value.differentiate_eq hfin hx hn,
    Value.differentiate_eq hwf.obstacle_eq_none hx hn, ?_⟩
  · rw [hrun, Expr.substitute_of_finished hfin]
  · rw [hrun, Expr.substitute_of_finished hd, hσ.subst_iterate_deriv]

/-- The second derivative of a call of an unknown function, with a number for one variable and that
variable for another. -/
theorem freezing_commutes_with_differentiation_unknown :
    let e := Expr.unknown "g" (.power (.var "x") (.var "y")) [.var "z"]
    let target := Value.expr (.var "x")
    let order := Value.plain (.int 2)
    let pairs := [(Value.plain (.str "y"), Value.plain (.float 3)), (.expr (.var "z"), .expr (.var "y"))]
    e.WellFormed ∧ ∃ frozen d r,
      (Session.substitute (.expr e) pairs).run.run {} = (.ok frozen, {}) ∧
      (Value.expr e).differentiate target order = .ok d ∧
      (Value.expr frozen).differentiate target order = .ok r ∧
      (Session.substitute (.expr d) pairs).run.run {} = (.ok r, {}) := by
  intro e target order pairs
  have hwf : e.WellFormed := ⟨rfl, ⟨trivial, trivial⟩, trivial, trivial⟩
  have hpairs : ∀ p ∈ pairs, ∃ y t, p.1.target? = some y ∧ p.2.toExpr = .ok t ∧ y ≠ "x" ∧
      ((∃ c, t = .const c) ∨ ∃ z, z ≠ "x" ∧ t = .var z) := by
    simp [pairs, Value.target?, Value.toExpr]
  exact ⟨hwf, freezing_commutes_with_differentiation hwf (x := "x") (n := 2) rfl rfl hpairs {}⟩

end Nabla
