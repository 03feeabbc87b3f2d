import Nabla.Proofs.RecordGrammar
import Nabla.Proofs.Vocabulary

/-!
# Transformations of well-formed trees

What the constructors build and what is read from a record is well formed. Differentiation,
simplification and substitution never fail on a well-formed tree and give one again, over the names
that were there before.
-/

namespace Nabla

namespace Expr

/-! ## Steps -/

/-- One transformation of a tree. -/
inductive Step where
  | differentiate (x : String)
  | simplify

def Step.run : Step → Expr → Except Error Expr
  | differentiate x, e => e.differentiate x
  | simplify, e => e.simplify

/-- All trees on the way through a sequence of steps, from the first to the last. -/
def visit : List Step → Expr → Except Error (List Expr)
  | [], e => .ok [e]
  | step :: steps, e => do return e :: (← visit steps (← step.run e))

theorem exists_step (step : Step) {e : Expr} (h : e.obstacle = none) :
    ∃ e', step.run e = .ok e' ∧ ∀ V, e.Over V → e'.Over V := by
  cases step with
  | differentiate x => exact ⟨_, differentiate_of_finished h x, fun V => over_deriv x⟩
  | simplify => exact ⟨_, simplify_of_obstacle_eq_none h, fun V => over_simplifyWith .double⟩

theorem exists_visit (steps : List Step) {e : Expr} (h : e.obstacle = none) :
    ∃ trees, visit steps e = .ok trees ∧ trees.length = steps.length + 1 ∧
      ∀ V, e.Over V → ∀ r ∈ trees, r.Over V := by
  induction steps generalizing e with
  | nil => exact ⟨[e], rfl, rfl, fun V hV => List.forall_mem_singleton.mpr hV⟩
  | cons step steps ih =>
    obtain ⟨e', hrun, hkeeps⟩ := exists_step step h
    -- That the next tree is finished is the vocabulary of all names.
    obtain ⟨trees, htrees, hlen, hover⟩ := ih (over_all_iff.mp (hkeeps _ (over_all_iff.mpr h)))
    refine ⟨e :: trees, ?_, by simp [hlen], fun V hV => ?_⟩
    · rw [visit, hrun]
      show (visit steps e' >>= _) = _
      rw [htrees]
      rfl
    · exact List.forall_mem_cons.mpr ⟨hV, hover V (hkeeps V hV)⟩

/-- The value of a tree at numbers. -/
def evalAt (e : Expr) (numbers : Table Float) : Except Error (NdArray Float) :=
  e.eval (numbers.map (Prod.map id NdArray.scalar))

theorem exists_evalAt_iff {e : Expr} {numbers : Table Float} :
    (∃ v, e.evalAt numbers = .ok v) ↔ e.Over (.bound numbers.find?) := by
  unfold evalAt
  rw [eval_numbers, ← evaluates_iff (A := .double)]
  constructor
  · rintro ⟨v, hv⟩
    obtain ⟨x, hx, -⟩ := map_eq_ok_iff.mp hv
    exact ⟨x, hx⟩
  · rintro ⟨x, hx⟩
    exact ⟨.scalar x, map_eq_ok_iff.mpr ⟨x, hx, rfl⟩⟩

/-- The tree `r` is well formed, its variables can be listed, it has only names of `e`, and it has a
value wherever `e` has one. -/
structure Within (e r : Expr) : Prop where
  wellFormed : r.WellFormed
  listed : r.listVariables = .ok r.variableNames
  names : ∀ x ∈ r.variableNames, x ∈ e.variableNames
  functions : ∀ n, r.Calls n → e.Calls n
  evaluates : ∀ numbers, (∃ v, e.evalAt numbers = .ok v) → ∃ v, r.evalAt numbers = .ok v

theorem within_of_over {e r : Expr} (h : e.WellFormed) (hr : ∀ V, e.Over V → r.Over V) :
    e.Within r where
  wellFormed := wellFormed_iff_over.mpr (hr _ (wellFormed_iff_over.mp h))
  listed := listVariables_of_finished (over_all_iff.mp (hr _ (over_all_iff.mpr h.obstacle_eq_none)))
  names _ hx := (hr _ (over_vocabulary h.obstacle_eq_none)).hasVar_of_mem hx
  functions _ hn := (hr _ (over_vocabulary h.obstacle_eq_none)).hasFn_of_calls hn
  evaluates _ hv := exists_evalAt_iff.mpr (hr _ (exists_evalAt_iff.mp hv))

/-! ## Substitution -/

theorem anySubstObstacle_of_forall {es : List Expr} (h : ∀ e ∈ es, e.substObstacle = none) :
    anySubstObstacle es = none := by
  induction es with
  | nil => rfl
  | cons e es ih =>
    obtain ⟨he, hes⟩ := List.forall_mem_cons.mp h
    exact orElse_eq_none_iff.mpr ⟨he, ih hes⟩

theorem substObstacle_of_finished {e : Expr} (h : e.obstacle = none) : e.substObstacle = none := by
  induction e with
  | const | var => rfl
  | neg a iha | call f a iha => exact iha h
  | binary op a b iha ihb | powCall a b iha ihb =>
    obtain ⟨ha, hb⟩ := orElse_eq_none_iff.mp h
    exact orElse_eq_none_iff.mpr ⟨iha ha, ihb hb⟩
  | unknown n a rest iha ihrest =>
    obtain ⟨ha, hrest⟩ := orElse_eq_none_iff.mp h
    refine orElse_eq_none_iff.mpr ⟨iha ha, anySubstObstacle_of_forall fun e he => ?_⟩
    exact ihrest e he (finished_iff_of_mem.mp hrest e he)
  | blank | pair | datum | oddVar => exact nomatch h

theorem substitute_of_finished {e : Expr} (h : e.obstacle = none) (σ : String → Option Expr) :
    e.substitute σ = .ok (e.subst σ) := by
  rw [substitute, substObstacle_of_finished h]

theorem wellFormed_subst {e : Expr} {σ : String → Option Expr} (h : e.WellFormed)
    (hσ : ∀ x t, σ x = some t → t.WellFormed) : (e.subst σ).WellFormed := by
  rw [wellFormed_iff_over] at h ⊢
  refine over_subst h (fun x _ => ?_) (fun _ hn => hn) fun _ hn => hn
  cases hx : σ x with
  | none => exact over_var.mpr trivial
  | some t => exact wellFormed_iff_over.mp (hσ x t hx)

theorem variableNames_subst {e : Expr} {σ : String → Option Expr} (h : e.WellFormed)
    (hσ : ∀ x t, σ x = some t → t.WellFormed) {y : String} (hy : y ∈ (e.subst σ).variableNames) :
    y ∈ e.variableNames ∧ σ y = none ∨
      ∃ x t, x ∈ e.variableNames ∧ σ x = some t ∧ y ∈ t.variableNames := by
  let W : Vocabulary :=
    ⟨fun y => y ∈ e.variableNames ∧ σ y = none ∨
      ∃ x t, x ∈ e.variableNames ∧ σ x = some t ∧ y ∈ t.variableNames, fun _ => True, fun _ => True⟩
  have hover : (e.subst σ).Over W := by
    refine over_subst (over_vocabulary h.obstacle_eq_none) (fun x hx => ?_) (fun _ _ => trivial)
      fun _ _ => trivial
    cases hσx : σ x with
    | none => exact over_var.mpr (Or.inl ⟨hx, hσx⟩)
    | some t =>
      refine (over_vocabulary (hσ x t hσx).obstacle_eq_none).mono (fun z hz => ?_)
        (fun _ _ => trivial) fun _ _ => trivial
      exact Or.inr ⟨x, t, hx, hσx, hz⟩
  exact hover.hasVar_of_mem hy

end Expr

theorem exists_substitute {e : Expr} (h : e.WellFormed) {pairs : List (Value × Value)}
    (hpairs : ∀ p ∈ pairs, ∃ x t, p.1.target? = some x ∧ p.2.toExpr = .ok t ∧ t.WellFormed)
    (s : Session) :
    ∃ r, (Session.substitute (.expr e) pairs).run.run s = (.ok r, s) ∧ r.WellFormed ∧
      ∀ y ∈ r.variableNames,
        (y ∈ e.variableNames ∧ ∀ t, ¬ Value.Replaces pairs y t) ∨
          ∃ x t, x ∈ e.variableNames ∧ Value.Replaces pairs x t ∧ y ∈ t.variableNames := by
  have hread : ∀ p ∈ pairs, ∃ x t, p.1.target? = some x ∧ p.2.toExpr = .ok t := by
    intro p hp
    obtain ⟨x, t, hx, ht, -⟩ := hpairs p hp
    exact ⟨x, t, hx, ht⟩
  obtain ⟨σ, hrun, hfrom, hall⟩ := Session.exists_substitution hread s
  have hσ : ∀ x t, σ x = some t → t.WellFormed := by
    intro x t hx
    obtain ⟨p, hp, -, ht⟩ := hfrom x t hx
    obtain ⟨-, t', -, ht', hwf⟩ := hpairs p hp
    obtain rfl : t' = t := Except.ok.inj (ht'.symm.trans ht)
    exact hwf
  refine ⟨_, ?_, Expr.wellFormed_subst h hσ, fun y hy => ?_⟩
  · rw [hrun, Expr.substitute_of_finished h.obstacle_eq_none]
  · rcases Expr.variableNames_subst h hσ hy with ⟨hy, hnone⟩ | ⟨x, t, hx, hxt, hy⟩
    · exact Or.inl ⟨hy, fun t ht => hall y t ht hnone⟩
    · exact Or.inr ⟨x, t, hx, hfrom x t hxt, hy⟩

/-- Constructors, and records whose names are texts, give well-formed trees, and no sequence of
derivatives and simplifications and no substitution leaves them: nothing fails, no name comes in, and
what had a value keeps having one. -/
theorem transformations_stay_within :
    ((∀ c, (Expr.const c).WellFormed) ∧ (∀ x, (Expr.var x).WellFormed) ∧
      (∀ a : Expr, a.WellFormed → (Expr.neg a).WellFormed) ∧
      (∀ op (a b : Expr), a.WellFormed → b.WellFormed → (Expr.binary op a b).WellFormed) ∧
      (∀ name args e, (∀ a ∈ args, a.WellFormed) → Expr.apply name args = .ok e → e.WellFormed) ∧
      ∀ j e, Expr.TextNames j → Expr.ofJson j = .ok e → e.WellFormed) ∧
    ∀ e : Expr, e.WellFormed →
      (∀ steps, ∃ trees, Expr.visit steps e = .ok trees ∧ trees.length = steps.length + 1 ∧
        ∀ r ∈ trees, e.Within r) ∧
      ∀ (pairs : List (Value × Value)) (s : Session),
        (∀ p ∈ pairs, ∃ x t, p.1.target? = some x ∧ p.2.toExpr = .ok t ∧ t.WellFormed) →
        ∃ r, (Session.substitute (.expr e) pairs).run.run s = (.ok r, s) ∧ r.WellFormed ∧
          ∀ y ∈ r.variableNames,
            (y ∈ e.variableNames ∧ ∀ t, ¬ Value.Replaces pairs y t) ∨
              ∃ x t, x ∈ e.variableNames ∧ Value.Replaces pairs x t ∧ y ∈ t.variableNames := by
  refine ⟨⟨fun _ => trivial, fun _ => trivial, fun _ h => h, fun _ _ _ ha hb => ⟨ha, hb⟩, ?_, ?_⟩, ?_⟩
  · exact fun name args e hargs h => Expr.wellFormed_apply hargs h
  · exact fun j e hnames h => Expr.wellFormed_ofJson hnames h
  · intro e h
    refine ⟨fun steps => ?_, fun pairs s hpairs => exists_substitute h hpairs s⟩
    obtain ⟨trees, hvisit, hlen, hover⟩ := Expr.exists_visit steps h.obstacle_eq_none
    exact ⟨trees, hvisit, hlen, fun r hr => Expr.within_of_over h fun V hV => hover V hV r hr⟩

/-- A call of an unknown function, built and read: two derivatives with a simplification between them,
and a substitution by a number and by a variable. -/
theorem transformations_stay_within_unknown :
    let args := [.call .log (.var "x"), .var "y"]
    let e := Expr.unknown "g" (.call .log (.var "x")) [.var "y"]
    let x := Expr.record "Var" [("name", .str "x")]
    let y := Expr.record "Var" [("name", .str "y")]
    let j := Expr.callRecord "g" [Expr.callRecord "log" [x], y]
    let pairs := [(Value.plain (.str "x"), Value.plain (.float 2)), (.expr (.var "y"), .expr (.var "z"))]
    Expr.apply "g" args = .ok e ∧ Expr.TextNames j ∧ Expr.ofJson j = .ok e ∧ e.WellFormed ∧
      (∃ trees, Expr.visit [.differentiate "x", .simplify, .differentiate "y"] e = .ok trees ∧
        trees.length = 4 ∧ ∀ r ∈ trees, e.Within r) ∧
      ∃ r, (Session.substitute (.expr e) pairs).run.run {} = (.ok r, {}) ∧ r.WellFormed := by
  intro args e x y j pairs
  have happly : Expr.apply "g" args = .ok e := rfl
  have hread : Expr.ofJson j = .ok e := rfl
  have hx : Expr.IsNode x := .var rfl rfl
  have hy : Expr.IsNode y := .var rfl rfl
  have hlog : Expr.IsNode (Expr.callRecord "log" [x]) :=
    .call rfl rfl rfl (Expr.exists_apply_iff.mp ⟨_, show Expr.apply "log" [.one] = _ from rfl⟩)
      (List.forall_mem_singleton.mpr hx)
  have hj : Expr.IsNode j :=
    .call rfl rfl rfl (Expr.exists_apply_iff.mp ⟨_, happly⟩) (by simp [hlog, hy])
  obtain ⟨⟨-, -, -, -, -, hrecord⟩, htrees⟩ := transformations_stay_within
  have hwf : e.WellFormed := hrecord j e hj.textNames hread
  obtain ⟨hsteps, hsubst⟩ := htrees e hwf
  have hpairs : ∀ p ∈ pairs, ∃ x t, p.1.target? = some x ∧ p.2.toExpr = .ok t ∧ t.WellFormed := by
    simp [pairs, Value.target?, Value.toExpr, Expr.WellFormed]
  obtain ⟨r, hrun, hr, -⟩ := hsubst pairs {} hpairs
  exact ⟨happly, hj.textNames, hread, hwf, hsteps _, r, hrun, hr⟩

/-- A variable whose name is a list is read from its record, but its variables cannot be listed and
nothing can be substituted in it. -/
theorem substitution_fails_on_odd_names :
    let name := Json.arr [.str "a"]
    let e := Expr.oddVar ⟨name, rfl⟩
    Expr.ofJson (Expr.record "Var" [("name", name)]) = .ok e ∧ e.kind = "Var" ∧ e.children = [] ∧
      e.listVariables = .error (.unhashable "list") ∧
      (Session.substitute (.expr e) []).run.run {} = (.error (.unhashable "list"), {}) :=
  ⟨rfl, rfl, rfl, rfl, rfl⟩

end Nabla
