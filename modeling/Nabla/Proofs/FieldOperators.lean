import Nabla.Proofs.Simplification

/-!
# What the operators on fields give

One spec for each operator on expressions without unfinished nodes: nothing fails, and where there is
nothing to report the logs stay as they are.
-/

namespace Nabla.Field

theorem ofLambda_array {ps : List String} {es : List Expr} (h : ps.length = es.length)
    (log : LogId) : ofLambda ⟨ps, .array es⟩ log = pure ⟨ps, es, log, h⟩ := by
  unfold ofLambda
  exact dif_pos h

theorem partials_of_finished {e : Expr} (h : e.obstacle = none) (ps : List String) :
    partials ps e = .ok (ps.map fun p => e.deriv p) := by
  unfold partials
  rw [mapM_eq_ok_iff, List.forall₂_map_right_iff, List.forall₂_same]
  intro p _
  exact Expr.differentiate_of_finished h p

/-- The field of the partial derivatives of an expression. -/
def ofPartials (ps : List String) (e : Expr) (log : LogId) : Field :=
  ⟨ps, ps.map fun p => e.deriv p, log, by simp⟩

theorem gradient_scalar {e : Expr} (h : e.obstacle = none) (ps : List String) (log : LogId)
    (b : LogBook) :
    (gradient ⟨ps, .scalar e⟩ log).run.run b = (.ok (ofPartials ps e log), b) := by
  have hlen : ps.length = (ps.map fun p => e.deriv p).length := by simp
  simp only [gradient, partials_of_finished h]
  show (liftM (ofLambda ⟨ps, .array (ps.map fun p => e.deriv p)⟩ log) : Reporting Field).run.run b = _
  rw [ofLambda_array hlen]
  rfl

variable {F : Field}

theorem jacobian_of_finished (h : ∀ e ∈ F.bodies, e.obstacle = none) :
    F.jacobian = .ok (F.bodies.map fun e => F.parameters.map fun p => e.deriv p) := by
  unfold jacobian
  rw [mapM_eq_ok_iff, List.forall₂_map_right_iff, List.forall₂_same]
  intro e he
  exact partials_of_finished (h e he) F.parameters

theorem ownDerivatives_of_finished (h : ∀ e ∈ F.bodies, e.obstacle = none) :
    F.ownDerivatives = .ok ((F.bodies.zip F.parameters).map fun q => q.1.deriv q.2) := by
  unfold ownDerivatives
  rw [mapM_eq_ok_iff, List.forall₂_map_right_iff, List.forall₂_same]
  rintro ⟨e, p⟩ hq
  exact Expr.differentiate_of_finished (h e (List.of_mem_zip hq).1) p

theorem rotation_of_finished {e e' : Expr} (h : e.obstacle = none) (h' : e'.obstacle = none)
    (p p' : String) : rotation e p e' p' = .ok (.sub (e.deriv p) (e'.deriv p')) := by
  unfold rotation
  rw [Expr.differentiate_of_finished h, Expr.differentiate_of_finished h']
  rfl

/-- The curl in three dimensions, as trees. -/
def rotations (f g h : Expr) (x y z : String) : List Expr :=
  [.sub (h.deriv y) (g.deriv z), .sub (h.deriv x) (f.deriv z), .sub (g.deriv x) (f.deriv y)]

theorem curl_three {f g h : Expr} {x y z : String} {log : LogId} (hf : f.obstacle = none)
    (hg : g.obstacle = none) (hh : h.obstacle = none) (b : LogBook) :
    (curl ⟨[x, y, z], [f, g, h], log, rfl⟩).run.run b =
      (.ok ⟨[x, y, z], rotations f g h x y z, log, rfl⟩, b) := by
  unfold curl
  simp only [rotation_of_finished, hf, hg, hh]
  rfl

theorem simplify_of_finished (h : ∀ e ∈ F.bodies, e.obstacle = none) (b : LogBook) :
    ∃ G, F.simplify.run.run b = (.ok G, b) ∧ G.parameters = F.parameters ∧
      G.bodies = F.bodies.map (Expr.simplifyWith .double) ∧ G.log = F.log := by
  have hlen : F.parameters.length = (F.bodies.map (Expr.simplifyWith .double)).length := by
    rw [List.length_map, F.balanced]
  refine ⟨⟨_, _, F.log, hlen⟩, ?_, rfl, rfl, rfl⟩
  simp only [simplify, toLambda, Lambda.simplify_array h]
  show (liftM (ofLambda ⟨F.parameters, .array (F.bodies.map _)⟩ F.log) : Reporting Field).run.run b = _
  rw [ofLambda_array hlen]
  rfl

end Nabla.Field
