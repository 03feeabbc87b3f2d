import Nabla.Proofs.Transformations

/-!
# Substitution and evaluation

The value of a tree after a substitution is the value of the tree before it, where each replaced
variable has the value of what replaces it. All variables are replaced at once, so nothing that was put
in is replaced again, and the first failure stays the first.
-/

namespace Nabla

/-! ## The entry that counts -/

theorem Table.find?_ofPairs {α : Type} (pairs : List (String × α)) (name : String) :
    (ofPairs pairs).find? name = (pairs.reverse.find? fun p => p.1 == name).map Prod.snd := by
  induction pairs using List.reverseRecOn with
  | nil => rfl
  | append_singleton pairs p ih =>
    obtain ⟨key, a⟩ := p
    rw [ofPairs_append, List.reverse_append]
    by_cases hk : name = key
    · subst hk
      simp
    · rw [find?_set_of_ne _ _ hk, ih]
      simp [Ne.symm hk]

namespace Value

/-- The last of the entries that name the variable `y` replaces it by the tree `t`. -/
def LastReplaces (given : List (Value × Value)) (y : String) (t : Expr) : Prop :=
  ∃ p, (given.reverse.find? fun p => p.1.target? == some y) = some p ∧ p.2.toExpr = .ok t

theorem lastReplaces_iff {given : List (Value × Value)} {named : List (String × Expr)}
    (h : List.Forall₂ Session.Reads given named) {y : String} {t : Expr} :
    (Table.ofPairs named).find? y = some t ↔ LastReplaces given y t := by
  unfold LastReplaces
  rw [Table.find?_ofPairs]
  rw [← List.forall₂_reverse_iff] at h
  generalize given.reverse = given, named.reverse = named at h
  induction h with
  | nil => simp
  | @cons q r given named hq _ ih =>
    obtain ⟨hkey, hval⟩ := hq
    by_cases hy : r.1 = y
    · subst hy
      simp [hkey, hval]
    · simpa [hkey, hy] using ih

theorem entries_of_distinct {pairs : List (Value × Value)}
    (hkeys : ∀ p ∈ pairs, ∃ x, p.1.target? = some x)
    (h : pairs.Pairwise fun p q => p.1.same q.1 = false) : entries pairs = .ok pairs := by
  have hset {t : List (Value × Value)} {key : Value} (v : Value)
      (ht : ∀ q ∈ t, q.1.same key = false) : setKey t key v = t ++ [(key, v)] := by
    induction t with
    | nil => rfl
    | cons q t ih =>
      obtain ⟨hq, ht⟩ := List.forall_mem_cons.mp ht
      rw [setKey, hq, ih ht]
      rfl
  have hfold : pairs.foldl (fun t p => setKey t p.1 p.2) [] = pairs := by
    induction pairs using List.reverseRecOn with
    | nil => rfl
    | append_singleton pairs p ih =>
      obtain ⟨hpairs, -, hlast⟩ := List.pairwise_append.mp h
      rw [List.foldl_append, ih (fun q hq => hkeys q (List.mem_append_left _ hq)) hpairs]
      exact hset p.2 fun q hq => hlast q hq p (List.mem_singleton.mpr rfl)
  unfold entries
  rw [forIn_checkKey fun p hp => checkKey_of_target? (hkeys p hp).choose_spec]
  exact congrArg Except.ok hfold

end Value

/-! ## Evaluation -/

namespace Expr

variable {β : Type u} {I : Interp β} {ρ ρ' : String → Option β}

/-- What replaces the variable has a value, and in `ρ'` the variable has that value; one that is not
replaced has the same value as before. -/
structure RebindsAt (I : Interp β) (ρ ρ' : String → Option β) (σ : String → Option Expr)
    (y : String) : Prop where
  replaced : ∀ t, σ y = some t → ∃ v, t.evalWith I ρ = .ok v ∧ ρ' y = some v
  kept : σ y = none → ρ' y = ρ y

theorem evalWith_subst {σ : String → Option Expr} {e : Expr} (hfin : e.obstacle = none)
    (h : ∀ y ∈ e.variableNames, RebindsAt I ρ ρ' σ y) :
    (e.subst σ).evalWith I ρ = e.evalWith I ρ' := by
  induction e with
  | const c => rfl
  | var y =>
    obtain ⟨hreplaced, hkept⟩ := h y (mem_variableNames_var.mpr rfl)
    rw [subst]
    cases hσ : σ y with
    | none => rw [Option.getD_none, evalWith, evalWith, hkept hσ]
    | some t =>
      obtain ⟨v, hv, hρ'⟩ := hreplaced t hσ
      rw [Option.getD_some, evalWith, hv, hρ']
  | neg a iha | call f a iha =>
    have ha := iha hfin fun y hy => h y (mem_variableNames_iff_children.mpr (by simp [children, hy]))
    rw [subst, evalWith, evalWith, ha]
  | binary op a b iha ihb | powCall a b iha ihb =>
    obtain ⟨hfa, hfb⟩ := orElse_eq_none_iff.mp hfin
    have ha := iha hfa fun y hy => h y (mem_variableNames_iff_children.mpr (by simp [children, hy]))
    have hb := ihb hfb fun y hy => h y (mem_variableNames_iff_children.mpr (by simp [children, hy]))
    rw [subst, evalWith, evalWith, ha, hb]
  -- what is called is refused before its arguments, replaced or not
  | unknown n a rest => rfl
  | blank | pair | datum | oddVar => cases hfin

end Expr

/-- A substitution never fails, and evaluating what it gives is evaluating the tree with the replaced
variables bound to the values of their trees: the same value or the same failure. Of several entries
for a variable the last one counts, and where all keys are different the entries are the pairs. -/
theorem substitution_commutes_with_evaluation {e : Expr} (he : e.obstacle = none)
    {pairs : List (Value × Value)}
    (hpairs : ∀ p ∈ pairs, ∃ x t, p.1.target? = some x ∧ p.2.toExpr = .ok t) (s : Session) :
    ∃ given r, Value.entries pairs = .ok given ∧
      (pairs.Pairwise (fun p q => p.1.same q.1 = false) → given = pairs) ∧
      (Session.substitute (.expr e) pairs).run.run s = (.ok r, s) ∧
      ∀ {β : Type u} (I : Interp β) (ρ ρ' : String → Option β),
        (∀ y ∈ e.variableNames, ∀ t, Value.LastReplaces given y t →
          ∃ v, t.evalWith I ρ = .ok v ∧ ρ' y = some v) →
        (∀ y ∈ e.variableNames, (∀ t, ¬ Value.LastReplaces given y t) → ρ' y = ρ y) →
        r.evalWith I ρ = e.evalWith I ρ' := by
  have hkeys : ∀ p ∈ pairs, ∃ x, p.1.target? = some x := by
    intro p hp
    obtain ⟨x, t, hx, -⟩ := hpairs p hp
    exact ⟨x, hx⟩
  obtain ⟨given, hgiven, hmaps⟩ := Value.exists_entries hkeys
  obtain ⟨named, hnamed, hrun⟩ :=
    Session.run_substitute_of_entries hgiven (Session.exists_reads hpairs hmaps) e s
  rw [Expr.substitute_of_finished he] at hrun
  refine ⟨given, _, hgiven, fun hdistinct => ?_, hrun, fun I ρ ρ' hreplaced hkept => ?_⟩
  · exact Except.ok.inj (hgiven.symm.trans (Value.entries_of_distinct hkeys hdistinct))
  · refine Expr.evalWith_subst he fun y hy => ⟨fun t ht => ?_, fun hnone => ?_⟩
    · exact hreplaced y hy t ((Value.lastReplaces_iff hnamed).mp ht)
    · refine hkept y hy fun t ht => ?_
      rw [(Value.lastReplaces_iff hnamed).mpr ht] at hnone
      cases hnone

/-- Two variables change places, and a first entry for one of them does not count. -/
theorem substitution_commutes_with_evaluation_swap :
    let e := Expr.sub (.var "x") (.var "y")
    let pairs := [(Value.plain (.str "x"), Value.plain (.float 7)), (.expr (.var "x"), .expr (.var "y")),
      (.plain (.str "y"), .expr (.var "x"))]
    let ρ := Table.find? [("x", (1 : Float)), ("y", 2)]
    e.obstacle = none ∧ (∀ p ∈ pairs, ∃ x t, p.1.target? = some x ∧ p.2.toExpr = .ok t) ∧
      ∃ r, (Session.substitute (.expr e) pairs).run.run {} = (.ok r, {}) ∧
        r.evalWith (.scalar .double id) ρ = .ok (2 - 1) := by
  intro e pairs ρ
  have hpairs : ∀ p ∈ pairs, ∃ x t, p.1.target? = some x ∧ p.2.toExpr = .ok t := by
    simp [pairs, Value.target?, Value.toExpr]
  obtain ⟨given, r, -, hgiven, hrun, heval⟩ :=
    substitution_commutes_with_evaluation (e := e) rfl hpairs {}
  obtain rfl : given = pairs := hgiven (by simp [pairs, Value.same, Json.same])
  refine ⟨rfl, hpairs, r, hrun, ?_⟩
  have hvars : e.variableNames = ["x", "y"] := rfl
  rw [heval (.scalar .double id) ρ (Table.find? [("x", 2), ("y", 1)])]
  · rfl
  · rw [hvars]
    rintro y hy t ⟨p, hp, ht⟩
    rcases List.mem_pair.mp hy with rfl | rfl <;> cases hp <;> cases ht <;> exact ⟨_, rfl, rfl⟩
  · rw [hvars]
    intro y hy hnone
    rcases List.mem_pair.mp hy with rfl | rfl
    · exact absurd ⟨_, rfl, rfl⟩ (hnone (.var "y"))
    · exact absurd ⟨_, rfl, rfl⟩ (hnone (.var "x"))

end Nabla
