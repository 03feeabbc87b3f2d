import Nabla.Proofs.Alike
import Nabla.Proofs.NormalForm
import Nabla.Proofs.Sequence
import Nabla.Value.Calculus

/-!
# Passes until the text stays the same

Simplification is repeated as long as the text changes, and the tree of the last changed text is
kept. A pass can change a tree and not its text: a negated constant is written as the constant with a
minus before it. Such a tree is returned as it is, although a pass would change it. The first pass
decides which of the two happens, so the limit on the number of passes does not matter.
-/

namespace Nabla.Expr

theorem simplifyFull_succ {e : Expr} (h : e.obstacle = none) (n : Nat) :
    e.simplifyFull (n + 1) =
      .ok (if (simplifyWith .double e).text = e.text then e else simplifyWith .double e) := by
  rw [simplifyFull_step h]
  by_cases ht : (simplifyWith .double e).text = e.text
  · rw [if_pos ht, if_pos ht]
  · rw [if_neg ht, if_neg ht]
    cases n with
    | zero => rfl
    | succ n =>
      -- The second pass changes nothing.
      rw [simplifyFull_step (finished_simplifyWith h), simplifyWith_idem _ h, if_pos rfl]

theorem alike_simplifyWith_iff {e : Expr} (h : e.obstacle = none) :
    Alike (simplifyWith .double e) e ↔ simplifyWith .double e = e := by
  constructor
  · intro halike
    rcases size_simplifyWith .double e with heq | hlt
    · exact heq
    · rw [halike.size_eq] at hlt
      exact absurd hlt (Nat.lt_irrefl _)
  · intro heq
    rw [heq]
    exact alike_refl h

/-- Repeated simplification ends at a tree that a further pass leaves alone exactly if the first pass
changes the text or changes nothing. -/
theorem simplifyFull_fixed_iff {e : Expr} (h : e.WellFormed) (n : Nat) :
    ∃ s r r', e.simplify = .ok s ∧ e.simplifyFull (n + 1) = .ok r ∧ r.simplify = .ok r' ∧
      (Alike r' r ↔ s.text ≠ e.text ∨ s = e) := by
  have hfin := h.obstacle_eq_none
  have hs := simplify_of_obstacle_eq_none hfin
  by_cases ht : (simplifyWith .double e).text = e.text
  · refine ⟨_, e, _, hs, ?_, hs, ?_⟩
    · rw [simplifyFull_succ hfin, if_pos ht]
    · rw [alike_simplifyWith_iff hfin]
      exact ⟨Or.inr, fun h => h.resolve_left (absurd ht)⟩
  · have hfin' := finished_simplifyWith (A := .double) hfin
    refine ⟨_, simplifyWith .double e, _, hs, ?_, simplify_of_obstacle_eq_none hfin', ?_⟩
    · rw [simplifyFull_succ hfin, if_neg ht]
    · rw [simplifyWith_idem _ hfin]
      exact ⟨fun _ => Or.inl ht, fun _ => alike_refl hfin'⟩

/-- A product with a neutral factor, of which the text changes. -/
theorem simplifyFull_fixed_iff_product :
    let e := mul one (var "x")
    e.WellFormed ∧ e.simplifyFull 10 = .ok (var "x") ∧
      ∃ r', (var "x").simplify = .ok r' ∧ Alike r' (var "x") := by
  intro e
  have hwf : e.WellFormed := ⟨trivial, trivial⟩
  obtain ⟨s, r, r', hs, hr, hr', hiff⟩ := simplifyFull_fixed_iff hwf 9
  obtain rfl : var "x" = s := Except.ok.inj hs
  have ht : (var "x").text ≠ e.text := by decide +kernel
  obtain rfl : var "x" = r := by
    rw [simplifyFull_succ hwf.obstacle_eq_none] at hr
    exact Except.ok.inj (.trans (congrArg _ (if_neg ht).symm) hr)
  exact ⟨hwf, hr, r', hr', hiff.mpr (Or.inl ht)⟩

/-- The negated constant two is no fixed point, and it is returned: both trees have the same text. -/
theorem simplifyFull_negated_constant :
    let e := neg two
    e.WellFormed ∧ e.simplifyFull 10 = .ok e ∧ e.simplify = .ok (const (-2)) ∧
      ¬ Alike (const (-2)) e := by
  intro e
  have hwf : e.WellFormed := trivial
  have ht : (simplifyWith .double e).text = e.text := by decide +kernel
  refine ⟨hwf, ?_, rfl, fun h => h.elim⟩
  rw [simplifyFull_succ hwf.obstacle_eq_none, if_pos ht]

/-! ## The limit of passes -/

/-- What passes end at, however many are allowed: the tree itself if a pass keeps its text. -/
def settle (e : Expr) : Expr :=
  if (simplifyWith .double e).text = e.text then e else simplifyWith .double e

/-- A pass over `e` decides that `r` is the result, and `r` is written as what the pass gives. -/
def SettlesOn (e r : Expr) : Prop :=
  ∃ s, e.simplify = .ok s ∧ r = (if s.text = e.text then e else s) ∧ r.text = s.text

theorem settlesOn_settle {e : Expr} (h : e.obstacle = none) : e.SettlesOn e.settle := by
  refine ⟨_, simplify_of_obstacle_eq_none h, rfl, ?_⟩
  unfold settle
  split_ifs with ht
  · exact ht.symm
  · rfl

theorem simplifyFull_eq {e : Expr} (h : e.obstacle = none) (n : Int) :
    e.simplifyFull n.toNat = .ok (if 1 ≤ n then e.settle else e) := by
  split_ifs with hn
  · obtain ⟨k, hk⟩ : ∃ k, n.toNat = k + 1 := ⟨n.toNat - 1, by omega⟩
    rw [hk, simplifyFull_succ h]
    rfl
  · rw [show n.toNat = 0 by omega]
    rfl

end Nabla.Expr

namespace Nabla

theorem Value.simplifyFull_eq {e : Expr} (h : e.obstacle = none) {limit : Value} {n : Int}
    (hn : limit.toCount = .ok n) :
    (expr e).simplifyFull limit = .ok (expr (if 1 ≤ n then e.settle else e)) := by
  have hpasses := Expr.simplifyFull_eq h n
  unfold Value.simplifyFull
  simp only [hn, bind, Except.bind]
  cases hk : n.toNat with
  | zero =>
    rw [if_neg (by omega)]
    rfl
  | succ passes =>
    show (do return expr (← e.simplifyFull (passes + 1))) = _
    rw [← hk, hpasses]
    rfl

namespace Lambda

/-- The function with other components, as many as it has. -/
def mapComponents (f : Lambda) (k : Expr → Expr) : Lambda :=
  ⟨f.parameters, match f.body with
    | .none => .none
    | .scalar e => .scalar (k e)
    | .array es => .array (es.map k)⟩

theorem isArray_mapComponents (f : Lambda) (k : Expr → Expr) :
    (f.mapComponents k).isArray = f.isArray := by
  obtain ⟨parameters, body⟩ := f
  cases body <;> rfl

theorem components_mapComponents (f : Lambda) (k : Expr → Expr) :
    (f.mapComponents k).components = f.components.map k := by
  obtain ⟨parameters, body⟩ := f
  cases body <;> rfl

theorem mapComponents_id (f : Lambda) : f.mapComponents id = f := by
  obtain ⟨parameters, body⟩ := f
  cases body <;> simp [mapComponents]

theorem mapBody_eq {f : Lambda} (hf : f.isEmpty = false) {g : Expr → Except Error Expr}
    {k : Expr → Expr} (h : ∀ e ∈ f.components, g e = .ok (k e)) :
    f.mapBody g = .ok (f.mapComponents k) := by
  obtain ⟨parameters, body⟩ := f
  cases body with
  | none => cases hf
  | scalar e =>
    unfold mapBody
    simp only [h e (List.mem_singleton.mpr rfl)]
    rfl
  | array es =>
    have hes : es.mapM g = .ok (es.map k) := by
      rw [mapM_eq_ok_iff, List.forall₂_map_right_iff, List.forall₂_same]
      exact h
    unfold mapBody
    simp only [hes]
    rfl

end Lambda

theorem Value.simplifyLambda_eq {f : Lambda} (hf : f.isEmpty = false)
    (h : ∀ e ∈ f.components, e.obstacle = none) {settings : Settings} {n : Int}
    (hn : (ofJson settings.maxPasses).toCount = .ok n) :
    simplifyLambda f settings = .ok (if 1 ≤ n then f.mapComponents Expr.settle else f) := by
  have hpasses : ∀ e ∈ f.components, (do
      let limit ← (ofJson settings.maxPasses).toCount
      e.simplifyFull limit.toNat) = .ok (if 1 ≤ n then e.settle else e) := by
    intro e he
    rw [hn]
    exact Expr.simplifyFull_eq (h e he) n
  split_ifs at hpasses ⊢ with hlimit
  · exact Lambda.mapBody_eq hf hpasses
  · refine (Lambda.mapBody_eq (k := id) hf hpasses).trans ?_
    rw [Lambda.mapComponents_id]

/-- One pass is as good as any number of them: it decides between the tree and what it makes of it,
whose text the result has in either case. Without a pass the tree is returned. The components of a
function settle each on its own. -/
theorem pass_limit_is_irrelevant :
    (∀ e : Expr, e.WellFormed → ∃ r, e.SettlesOn r ∧ ∀ (limit : Value) n, limit.toCount = .ok n →
      (Value.expr e).simplifyFull limit = .ok (.expr (if 1 ≤ n then r else e))) ∧
    ∀ f : Lambda, f.isEmpty = false → (∀ e ∈ f.components, e.WellFormed) →
      ∃ g, g.parameters = f.parameters ∧ g.isArray = f.isArray ∧
        List.Forall₂ Expr.SettlesOn f.components g.components ∧
        ∀ (settings : Settings) n, (Value.ofJson settings.maxPasses).toCount = .ok n →
          Value.simplifyLambda f settings = .ok (if 1 ≤ n then g else f) := by
  constructor
  · intro e h
    have hfin := h.obstacle_eq_none
    exact ⟨e.settle, Expr.settlesOn_settle hfin, fun limit n hn => Value.simplifyFull_eq hfin hn⟩
  · intro f hf h
    have hfin : ∀ e ∈ f.components, e.obstacle = none := fun e he => (h e he).obstacle_eq_none
    refine ⟨f.mapComponents Expr.settle, rfl, f.isArray_mapComponents Expr.settle, ?_, ?_⟩
    · rw [f.components_mapComponents, List.forall₂_map_right_iff, List.forall₂_same]
      exact fun e he => Expr.settlesOn_settle (hfin e he)
    · intro settings n hn
      exact Value.simplifyLambda_eq hf hfin hn

/-- A product that a pass changes, alone and beside a negated constant that it does not. -/
theorem pass_limit_is_irrelevant_product :
    let e := Expr.mul .one (.var "x")
    let f : Lambda := ⟨["x"], .array [e, .neg .two]⟩
    e.WellFormed ∧ f.isEmpty = false ∧ (∀ c ∈ f.components, c.WellFormed) ∧
      (∀ n : Int, 1 ≤ n → (Value.expr e).simplifyFull (.plain (.int n)) = .ok (.expr (.var "x"))) ∧
      ∀ n : Int, 1 ≤ n → Value.simplifyLambda f { maxPasses := .int n } =
        .ok ⟨["x"], .array [.var "x", .neg .two]⟩ := by
  intro e f
  have he : e.WellFormed := ⟨trivial, trivial⟩
  have hf : ∀ c ∈ f.components, c.WellFormed := by
    simp [f, Lambda.components, he, Expr.WellFormed, Expr.two]
  have hproduct : (Expr.var "x").text ≠ e.text := by decide +kernel
  have hnegated : (Expr.const (-2)).text = (Expr.neg .two).text := by decide +kernel
  refine ⟨he, rfl, hf, ?_, ?_⟩
  · intro n hn
    obtain ⟨r, ⟨s, hs, hr, -⟩, hfull⟩ := pass_limit_is_irrelevant.1 e he
    obtain rfl : Expr.var "x" = s := Except.ok.inj hs
    rw [hfull _ n rfl, if_pos hn, hr, if_neg hproduct]
  · intro n hn
    obtain ⟨⟨ps, body⟩, hps, harray, hsettles, hfull⟩ := pass_limit_is_irrelevant.2 f rfl hf
    rw [hfull _ n rfl, if_pos hn]
    cases body with
    | none | scalar => cases harray
    | array rs =>
      simp only [f, Lambda.components] at hps hsettles
      obtain _ | ⟨⟨s, hs, hr, -⟩, _ | ⟨⟨t, ht, hr', -⟩, _ | _⟩⟩ := hsettles
      obtain rfl : Expr.var "x" = s := Except.ok.inj hs
      obtain rfl : Expr.const (-2) = t := Except.ok.inj ht
      rw [hps, hr, hr', if_neg hproduct, if_pos hnegated]

end Nabla
