import Nabla.Proofs.MixedPartials

/-!
# The divergence of a curl

The middle component of a curl is the derivative of the last component minus that of the first, the
other way round than in the cyclic order. Of the six mixed derivatives in the divergence of a curl one
pair cancels, and the other two come twice: they are the derivative of the middle component.
-/

noncomputable section

namespace Nabla

namespace Field

variable {f g h : Expr} {x y z : String}

/-- The divergence in three dimensions, as a tree. -/
def flux (f g h : Expr) (x y z : String) : Expr :=
  .add (.add (f.deriv x) (g.deriv y)) (h.deriv z)

theorem divergence_three (hf : f.obstacle = none) (hg : g.obstacle = none) (hh : h.obstacle = none)
    (log : LogId) (b : LogBook) :
    (divergence ⟨[x, y, z], [f, g, h], log, rfl⟩).run.run b =
      (.ok ⟨[x, y, z], .scalar (flux f g h x y z)⟩, b) := by
  have hfinished : ∀ e ∈ [f, g, h], e.obstacle = none := by simp [hf, hg, hh]
  have hown := ownDerivatives_of_finished (F := ⟨[x, y, z], [f, g, h], log, rfl⟩) hfinished
  unfold divergence
  rw [hown]
  rfl

/-- The middle component of a curl. -/
def middle (f h : Expr) (x z : String) : Expr := .sub (h.deriv x) (f.deriv z)

/-- The divergence of a curl, as a tree. -/
def curlFlux (f g h : Expr) (x y z : String) : Expr :=
  flux (.sub (h.deriv y) (g.deriv z)) (middle f h x z) (.sub (g.deriv x) (f.deriv y)) x y z

theorem divergence_curl_three (x y z : String) (hf : f.obstacle = none) (hg : g.obstacle = none)
    (hh : h.obstacle = none) (log : LogId) (b : LogBook) :
    ∃ G, (curl ⟨[x, y, z], [f, g, h], log, rfl⟩).run.run b = (.ok G, b) ∧
      G.bodies[1]? = some (middle f h x z) ∧
      G.divergence.run.run b = (.ok ⟨[x, y, z], .scalar (curlFlux f g h x y z)⟩, b) := by
  have hderiv : ∀ {e e' : Expr} (p q : String), e.obstacle = none → e'.obstacle = none →
      (Expr.sub (e.deriv p) (e'.deriv q)).obstacle = none := fun p q he he' =>
    Expr.finished_binary .sub (Expr.finished_deriv p he) (Expr.finished_deriv q he')
  refine ⟨_, curl_three hf hg hh b, rfl, ?_⟩
  exact divergence_three (hderiv y z hh hg) (hderiv x z hh hf) (hderiv x y hg hf) log b

theorem value_curlFlux {ρ : String → ℝ} {v : ℝ} (hv : (curlFlux f g h x y z).value ρ = some v) :
    ∃ s, ((middle f h x z).deriv y).value ρ = some s ∧ v = 2 * s := by
  -- The mixed derivatives of `g` cancel, and those of `f` and `h` come twice.
  obtain ⟨_, last, hsum, hlast, rfl⟩ := Expr.value_add hv
  obtain ⟨first, s, hfirst, hmiddle, rfl⟩ := Expr.value_add hsum
  obtain ⟨hyx, gzx, hhyx, hgzx, rfl⟩ := Expr.value_deriv_sub hfirst
  obtain ⟨hxy, fzy, hhxy, hfzy, rfl⟩ := Expr.value_deriv_sub hmiddle
  obtain ⟨gxz, fyz, hgxz, hfyz, rfl⟩ := Expr.value_deriv_sub hlast
  have hh := h.symmetric y x ρ hyx hxy hhyx hhxy
  have hg := g.symmetric z x ρ gzx gxz hgzx hgxz
  have hf := f.symmetric y z ρ fyz fzy hfyz hfzy
  refine ⟨_, hmiddle, ?_⟩
  rw [hh, hg, hf]
  ring

end Field

/-- The divergence of a curl is twice the derivative of the middle component of the curl, wherever it
has a value. -/
theorem divergence_of_curl_is_twice_middle {F : Field} (hdim : F.dim = 3)
    (hfin : ∀ e ∈ F.bodies, e.obstacle = none) (b : LogBook) :
    ∃ G d c p, F.curl.run.run b = (.ok G, b) ∧
      G.divergence.run.run b = (.ok ⟨F.parameters, .scalar d⟩, b) ∧
      G.bodies[1]? = some c ∧ F.parameters[1]? = some p ∧
      ∀ ρ v, d.value ρ = some v → ∃ s, (c.deriv p).value ρ = some s ∧ v = 2 * s := by
  obtain ⟨ps, es, log, hlen⟩ := F
  obtain ⟨f, g, h, rfl⟩ := List.length_eq_three.mp hdim
  obtain ⟨x, y, z, rfl⟩ := List.length_eq_three.mp hlen
  obtain ⟨G, hG, hmiddle, hdiv⟩ := Field.divergence_curl_three x y z (hfin f (by simp))
    (hfin g (by simp)) (hfin h (by simp)) log b
  exact ⟨G, _, _, y, hG, hdiv, hmiddle, rfl, fun ρ v hv => Field.value_curlFlux hv⟩

/-- Two general powers around a sine, at a point where the divergence of the curl has a value. -/
theorem divergence_of_curl_is_twice_middle_powers :
    let f := Expr.power (.var "z") (.var "y")
    let g := Expr.call .sin (.var "x")
    let h := Expr.power (.var "x") (.var "y")
    let F : Field := ⟨["x", "y", "z"], [f, g, h], 0, rfl⟩
    let ρ : String → ℝ := fun _ => 2
    F.dim = 3 ∧ (∀ e ∈ F.bodies, e.obstacle = none) ∧
      ∃ G d c v s, F.curl.run.run {} = (.ok G, {}) ∧
        G.divergence.run.run {} = (.ok ⟨F.parameters, .scalar d⟩, {}) ∧ G.bodies[1]? = some c ∧
        d.value ρ = some v ∧ (c.deriv "y").value ρ = some s ∧ v = 2 * s := by
  intro f g h F ρ
  have hfin : ∀ e ∈ F.bodies, e.obstacle = none := by
    simp [F, f, g, h, Expr.obstacle, Expr.power]
  have hpower : ∀ x y, (Expr.power (.var x) (.var y)).Robust ρ := fun x y =>
    ⟨trivial, trivial, Expr.forall_mem_value (Expr.value_var ρ x) two_pos⟩
  have hf : f.Robust ρ := hpower "z" "y"
  have hg : g.Robust ρ := ⟨trivial, fun _ _ => trivial⟩
  have hh : h.Robust ρ := hpower "x" "y"
  have hflux : (Field.curlFlux f g h "x" "y" "z").Robust ρ :=
    ⟨⟨⟨hh.deriv.deriv, hg.deriv.deriv⟩, hh.deriv.deriv, hf.deriv.deriv⟩, hg.deriv.deriv,
      hf.deriv.deriv⟩
  obtain ⟨v, hv⟩ := hflux.regular.exists_value
  obtain ⟨G, d, c, p, hG, hd, hc, hp, htwice⟩ := divergence_of_curl_is_twice_middle rfl hfin {}
  obtain rfl : "y" = p := Option.some.inj hp
  -- The divergence is the tree that has the value `v`.
  obtain ⟨G', hG', -, hd'⟩ :=
    Field.divergence_curl_three (f := f) (g := g) (h := h) "x" "y" "z" rfl rfl rfl 0 {}
  obtain rfl : G' = G := Except.ok.inj (congrArg Prod.fst (hG'.symm.trans hG))
  have hbody := congrArg Lambda.body (Except.ok.inj (congrArg Prod.fst (hd'.symm.trans hd)))
  obtain rfl : Field.curlFlux f g h "x" "y" "z" = d := Body.scalar.inj hbody
  obtain ⟨s, hs, hvs⟩ := htwice ρ v hv
  exact ⟨rfl, hfin, G', _, c, v, s, hG, hd, hc, hv, hs, hvs⟩

/-- The field `(0, 0, x * y)`, at the origin. -/
theorem divergence_of_curl_is_two :
    let F : Field := ⟨["x", "y", "z"], [.zero, .zero, .mul (.var "x") (.var "y")], 0, rfl⟩
    F.parameters.Nodup ∧ (∀ e ∈ F.bodies, e.WellFormed) ∧
      ∃ G d, F.curl.run.run {} = (.ok G, {}) ∧
        G.divergence.run.run {} = (.ok ⟨F.parameters, .scalar d⟩, {}) ∧
        d.value (fun _ => 0) = some 2 := by
  intro F
  refine ⟨by decide, ?_, ?_⟩
  · simp [F, Expr.WellFormed, Expr.zero, Expr.mul]
  · obtain ⟨G, hG, -, hdiv⟩ := Field.divergence_curl_three (f := .zero) (g := .zero)
      (h := .mul (.var "x") (.var "y")) "x" "y" "z" rfl rfl rfl 0 {}
    have hzero : ∀ p, Expr.zero.deriv p = .zero := fun _ => rfl
    have hone : ∀ p, Expr.one.deriv p = .zero := fun _ => rfl
    refine ⟨G, _, hG, hdiv, ?_⟩
    simp [Field.curlFlux, Field.flux, Field.middle, Expr.deriv, Expr.add, Expr.sub, Expr.mul,
      hzero, hone, BinOp.real?, one_add_one_eq_two]

end Nabla

end
