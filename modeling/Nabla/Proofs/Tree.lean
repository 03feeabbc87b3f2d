import Mathlib.Tactic.Common
import Nabla.Expr.Simplify

/-!
# Expression trees

An unknown function holds a list of arguments, so the induction over trees has to be told that the
arguments are parts too. A tree is finished if its parts are, and its variables are those of its parts.
A finished tree can be differentiated and simplified, and its variables can be listed.
-/

namespace Nabla.Expr

@[elab_as_elim, induction_eliminator]
theorem induction {motive : Expr → Prop} (const : ∀ c, motive (const c)) (var : ∀ x, motive (var x))
    (neg : ∀ a, motive a → motive (neg a))
    (binary : ∀ op a b, motive a → motive b → motive (binary op a b))
    (call : ∀ f a, motive a → motive (call f a))
    (powCall : ∀ a b, motive a → motive b → motive (powCall a b))
    (unknown : ∀ n a rest, motive a → (∀ e ∈ rest, motive e) → motive (unknown n a rest))
    (blank : motive blank) (pair : ∀ a b, motive a → motive b → motive (pair a b))
    (datum : ∀ j, motive (datum j)) (oddVar : ∀ n, motive (oddVar n)) (e : Expr) : motive e :=
  @Expr.rec motive (fun es => ∀ e ∈ es, motive e) const var neg binary call powCall unknown blank
    pair datum oddVar (fun _ h => nomatch h)
    (fun _ _ ha has => List.forall_mem_cons.mpr ⟨ha, has⟩) e

/-! ## Finished trees -/

mutual

/-- The first node from left to right that is unfinished or has an odd name. -/
def obstacle : Expr → Option Expr
  | const _ | var _ => none
  | neg e | call _ e => obstacle e
  | binary _ a b | powCall a b => obstacle a <|> obstacle b
  | unknown _ a rest => obstacle a <|> anyObstacle rest
  | blank => some blank
  | pair a b => some (pair a b)
  | datum j => some (datum j)
  | oddVar n => some (oddVar n)

def anyObstacle : List Expr → Option Expr
  | [] => none
  | e :: es => obstacle e <|> anyObstacle es

end

theorem orElse_eq_none_iff {α : Type} {o o' : Option α} :
    (o <|> o') = none ↔ o = none ∧ o' = none := by
  cases o <;> simp

theorem finished_iff_of_mem {es : List Expr} :
    anyObstacle es = none ↔ ∀ e ∈ es, e.obstacle = none := by
  induction es with
  | nil => simp [anyObstacle]
  | cons e es ih => rw [anyObstacle, orElse_eq_none_iff, ih, List.forall_mem_cons]

theorem finished_binary {a b : Expr} (op : BinOp) (ha : a.obstacle = none) (hb : b.obstacle = none) :
    (binary op a b).obstacle = none :=
  orElse_eq_none_iff.mpr ⟨ha, hb⟩

theorem allWellFormed_iff {es : List Expr} : AllWellFormed es ↔ ∀ e ∈ es, e.WellFormed := by
  induction es with
  | nil => simp [AllWellFormed]
  | cons e es ih => rw [AllWellFormed, ih, List.forall_mem_cons]

theorem anySimplifyObstacle_eq_none_iff {es : List Expr} :
    anySimplifyObstacle es = none ↔ ∀ e ∈ es, e.simplifyObstacle = none := by
  induction es with
  | nil => simp [anySimplifyObstacle]
  | cons e es ih => rw [anySimplifyObstacle, orElse_eq_none_iff, ih, List.forall_mem_cons]

theorem simplifyObstacle_of_finished {e : Expr} (h : e.obstacle = none) :
    e.simplifyObstacle = none := by
  induction e with
  | const | var => rfl
  | neg a iha | call f a iha => exact iha h
  | binary op a b iha ihb | powCall a b iha ihb =>
    obtain ⟨ha, hb⟩ := orElse_eq_none_iff.mp h
    exact orElse_eq_none_iff.mpr ⟨iha ha, ihb hb⟩
  | unknown n a rest iha ihrest =>
    obtain ⟨ha, hrest⟩ := orElse_eq_none_iff.mp h
    refine orElse_eq_none_iff.mpr ⟨iha ha, anySimplifyObstacle_eq_none_iff.mpr fun e he => ?_⟩
    exact ihrest e he (finished_iff_of_mem.mp hrest e he)
  | blank | pair | datum | oddVar => exact nomatch h

theorem simplify_of_obstacle_eq_none {e : Expr} (h : e.obstacle = none) :
    e.simplify = .ok (simplifyWith .double e) := by
  rw [simplify, simplifyObstacle_of_finished h]

theorem simplifyFull_step {e : Expr} (h : e.obstacle = none) (n : Nat) :
    e.simplifyFull (n + 1) = if (simplifyWith .double e).text = e.text then .ok e
      else simplifyFull n (simplifyWith .double e) := by
  rw [simplifyFull, simplify_of_obstacle_eq_none h]
  rfl

theorem derivObstacle_of_finished {e : Expr} (h : e.obstacle = none) : e.derivObstacle = none := by
  induction e with
  | const | var => rfl
  | neg a iha | call f a iha => exact iha h
  | binary op a b iha ihb =>
    obtain ⟨ha, hb⟩ := orElse_eq_none_iff.mp h
    cases op <;> simp [derivObstacle, iha ha, ihb hb]
  | powCall a b iha ihb =>
    obtain ⟨ha, hb⟩ := orElse_eq_none_iff.mp h
    exact orElse_eq_none_iff.mpr ⟨ihb hb, iha ha⟩
  | unknown n a rest iha ihrest => exact iha (orElse_eq_none_iff.mp h).1
  | blank | pair | datum | oddVar => exact nomatch h

theorem differentiate_of_finished {e : Expr} (h : e.obstacle = none) (x : String) :
    e.differentiate x = .ok (e.deriv x) := by
  rw [differentiate, derivObstacle_of_finished h]

/-! ## Variables -/

theorem mem_addName {seen : List String} {x y : String} :
    y ∈ addName seen x ↔ y ∈ seen ∨ y = x := by
  unfold addName
  split_ifs with h
  · constructor
    · exact Or.inl
    · rintro (hy | rfl)
      · exact hy
      · exact h
  · rw [List.mem_append, List.mem_singleton]

theorem mem_collectAll {es : List Expr} {y : String}
    (h : ∀ e ∈ es, ∀ seen, y ∈ collect seen e ↔ y ∈ seen ∨ y ∈ e.variableNames)
    (seen : List String) : y ∈ collectAll seen es ↔ y ∈ seen ∨ y ∈ collectAll [] es := by
  induction es generalizing seen with
  | nil => simp [collectAll]
  | cons e es ih =>
    obtain ⟨he, hes⟩ := List.forall_mem_cons.mp h
    rw [collectAll, collectAll, ih hes, he, ih hes (collect [] e), variableNames, or_assoc]

theorem mem_collect {e : Expr} {y : String} (seen : List String) :
    y ∈ collect seen e ↔ y ∈ seen ∨ y ∈ e.variableNames := by
  induction e generalizing seen with
  | const | blank | datum | oddVar => simp [variableNames, collect]
  | var x => simp [variableNames, collect, mem_addName]
  | neg a iha | call f a iha => exact iha seen
  | binary op a b iha ihb | powCall a b iha ihb | pair a b iha ihb =>
    show y ∈ collect (collect seen a) b ↔ y ∈ seen ∨ y ∈ collect (collect [] a) b
    rw [ihb, iha, ihb (collect [] a), or_assoc]
    rfl
  | unknown n a rest iha ihrest =>
    show y ∈ collectAll (collect seen a) rest ↔ y ∈ seen ∨ y ∈ collectAll (collect [] a) rest
    rw [mem_collectAll ihrest, iha, mem_collectAll ihrest (collect [] a), or_assoc]
    rfl

theorem mem_variableNames_var {x y : String} : y ∈ (var x).variableNames ↔ y = x := by
  rw [variableNames, collect, mem_addName]
  simp

theorem mem_collectAll_nil {es : List Expr} {y : String} :
    y ∈ collectAll [] es ↔ ∃ c ∈ es, y ∈ c.variableNames := by
  induction es with
  | nil => simp [collectAll]
  | cons e es ih =>
    rw [collectAll, mem_collectAll fun e _ seen => mem_collect seen, ih]
    simp [variableNames]

theorem mem_variableNames_iff_children {e : Expr} {y : String} :
    y ∈ e.variableNames ↔ var y = e ∨ ∃ c ∈ e.children, y ∈ c.variableNames := by
  cases e with
  | const | blank | datum | oddVar => simp [variableNames, collect, children]
  | var x => simp [mem_variableNames_var, children]
  | neg a | call f a => simp [variableNames, collect, children]
  | binary op a b | powCall a b | pair a b =>
    rw [variableNames, collect, mem_collect]
    simp [children, variableNames]
  | unknown n a rest =>
    rw [variableNames, collect, mem_collectAll fun e _ seen => mem_collect seen,
      mem_collectAll_nil]
    simp [children, variableNames]

theorem mem_variableNames_binary {op : BinOp} {a b : Expr} {y : String} :
    y ∈ (binary op a b).variableNames ↔ y ∈ a.variableNames ∨ y ∈ b.variableNames := by
  rw [mem_variableNames_iff_children]
  simp [children]

theorem addAnyName_map (seen : List String) (x : String) :
    addAnyName (seen.map .str) (.str x) = (addName seen x).map .str := by
  have hany : (seen.map Json.str).any (Json.str x).same = true ↔ x ∈ seen := by
    rw [List.any_map, List.any_eq_true]
    simp only [Function.comp_apply, Json.same, beq_iff_eq, exists_eq_right']
  unfold addAnyName addName
  simp only [hany]
  split_ifs with h
  · rfl
  · rw [List.map_append, List.map_singleton]

theorem listAllNames_of_finished {es : List Expr}
    (h : ∀ e ∈ es, e.obstacle = none → ∀ seen : List String,
      listNames (seen.map .str) e = .ok ((collect seen e).map .str))
    (hes : anyObstacle es = none) (seen : List String) :
    listAllNames (seen.map .str) es = .ok ((collectAll seen es).map .str) := by
  induction es generalizing seen with
  | nil => rfl
  | cons e es ih =>
    obtain ⟨he, hrest⟩ := List.forall_mem_cons.mp h
    obtain ⟨hfin, hfins⟩ := orElse_eq_none_iff.mp hes
    rw [listAllNames, he hfin]
    exact ih hrest hfins (collect seen e)

theorem listNames_of_finished {e : Expr} (h : e.obstacle = none) (seen : List String) :
    listNames (seen.map .str) e = .ok ((collect seen e).map .str) := by
  induction e generalizing seen with
  | const c => rfl
  | var x => exact congrArg Except.ok (addAnyName_map seen x)
  | neg a iha | call f a iha => exact iha h seen
  | binary op a b iha ihb | powCall a b iha ihb =>
    obtain ⟨ha, hb⟩ := orElse_eq_none_iff.mp h
    rw [listNames, iha ha]
    exact ihb hb (collect seen a)
  | unknown n a rest iha ihrest =>
    obtain ⟨ha, hrest⟩ := orElse_eq_none_iff.mp h
    rw [listNames, iha ha]
    exact listAllNames_of_finished ihrest hrest (collect seen a)
  | blank | pair | datum | oddVar => cases h

theorem listVariables_of_finished {e : Expr} (h : e.obstacle = none) :
    e.listVariables = .ok e.variableNames := by
  have htexts : (e.variableNames.map Json.str).map Json.text = e.variableNames := by
    rw [List.map_map]
    exact List.map_id _
  rw [listVariables, ← List.map_nil, listNames_of_finished h []]
  exact congrArg Except.ok htexts

end Nabla.Expr
