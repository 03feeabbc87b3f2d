import Nabla.Expr.Eval
import Nabla.Expr.Subst
import Nabla.Proofs.NormalForm

/-!
# The names in a tree

A tree is over a vocabulary if none of its nodes is unfinished and all its names are of the vocabulary.
Differentiation and simplification keep a tree over every vocabulary that it is over. That they never
fail on what they have made, bring in no variable and no function, and lose no value are cases of this
for one vocabulary each.
-/

namespace Nabla.Expr

/-! ## Parts -/

/-- The tree `c` stands somewhere in `e`. -/
def Occurs (c e : Expr) : Prop := ∃ place, e.part? place = some c

/-- The unknown function `n` is called somewhere in the tree. -/
def Calls (e : Expr) (n : String) : Prop := ∃ a rest, (unknown n a rest).Occurs e

theorem Occurs.refl (e : Expr) : e.Occurs e := ⟨[], rfl⟩

theorem occurs_of_child {c d e : Expr} (hd : d ∈ e.children) (h : c.Occurs d) : c.Occurs e := by
  obtain ⟨place, h⟩ := h
  obtain ⟨i, hi⟩ := List.mem_iff_getElem?.mp hd
  exact ⟨i :: place, by rw [part?, hi, Option.bind_some, h]⟩

theorem occurs_iff {c e : Expr} : c.Occurs e ↔ c = e ∨ ∃ d ∈ e.children, c.Occurs d := by
  constructor
  · rintro ⟨place, h⟩
    cases place with
    | nil =>
      cases h
      exact Or.inl rfl
    | cons i place =>
      obtain ⟨d, hd, h⟩ := Option.bind_eq_some_iff.mp h
      exact Or.inr ⟨d, List.mem_of_getElem? hd, place, h⟩
  · rintro (rfl | ⟨d, hd, h⟩)
    · exact Occurs.refl c
    · exact occurs_of_child hd h

theorem Occurs.left {c a b : Expr} {op : BinOp} (h : c.Occurs a) : c.Occurs (binary op a b) :=
  occurs_of_child (by simp [children]) h

theorem Occurs.right {c a b : Expr} {op : BinOp} (h : c.Occurs b) : c.Occurs (binary op a b) :=
  occurs_of_child (by simp [children]) h

theorem Occurs.under {c a : Expr} {f : Fn} (h : c.Occurs a) : c.Occurs (call f a) :=
  occurs_of_child (by simp [children]) h

theorem Occurs.inherit {P : Expr → Prop} (hP : ∀ e, P e → ∀ c ∈ e.children, P c) {c e : Expr}
    (hc : c.Occurs e) (h : P e) : P c := by
  obtain ⟨place, hc⟩ := hc
  induction place generalizing e with
  | nil =>
    cases hc
    exact h
  | cons i place ih =>
    obtain ⟨d, hd, hc⟩ := Option.bind_eq_some_iff.mp hc
    exact ih (hP e h d (List.mem_of_getElem? hd)) hc

theorem Occurs.trans {c d e : Expr} (hc : c.Occurs d) (hd : d.Occurs e) : c.Occurs e := by
  obtain ⟨place, hd⟩ := hd
  induction place generalizing e with
  | nil =>
    cases hd
    exact hc
  | cons i place ih =>
    obtain ⟨e', he', hd⟩ := Option.bind_eq_some_iff.mp hd
    exact occurs_of_child (List.mem_of_getElem? he') (ih hd)

theorem induction_on_children {motive : Expr → Prop}
    (step : ∀ e, (∀ c ∈ e.children, motive c) → motive e) (e : Expr) : motive e :=
  step e fun c hc =>
    have := size_lt_of_mem_children hc
    induction_on_children step c
termination_by e.size

theorem mem_variableNames_iff {e : Expr} {y : String} : y ∈ e.variableNames ↔ (var y).Occurs e := by
  induction e using induction_on_children with
  | step e ih =>
    rw [mem_variableNames_iff_children, occurs_iff]
    refine or_congr_right (exists_congr fun c => and_congr_right fun hc => ih c hc)

/-! ## Vocabularies -/

/-- The variables, the unknown functions and the variables with odd names that may stand in a tree. -/
structure Vocabulary where
  hasVar : String → Prop
  hasFn : String → Prop
  hasOdd : OddName → Prop

/-- The node is not an unfinished one, and its name is of the vocabulary. -/
def Fits (V : Vocabulary) : Expr → Prop
  | var x => V.hasVar x
  | unknown n _ _ => V.hasFn n
  | oddVar n => V.hasOdd n
  | blank | pair _ _ | datum _ => False
  | const _ | neg _ | binary _ _ _ | call _ _ | powCall _ _ => True

/-- Every node fits the vocabulary. -/
def Over (V : Vocabulary) (e : Expr) : Prop := ∀ place t, e.part? place = some t → t.Fits V

section Over

variable {V W : Vocabulary}

theorem over_iff {e : Expr} : e.Over V ↔ e.Fits V ∧ ∀ c ∈ e.children, c.Over V :=
  forall_part_iff (P := Fits V)

@[simp] theorem over_const (x : Float) : (const x).Over V := by
  rw [over_iff]
  simp [Fits, children]

@[simp] theorem over_var {x : String} : (var x).Over V ↔ V.hasVar x := by
  rw [over_iff]
  simp [Fits, children]

@[simp] theorem over_neg {a : Expr} : (neg a).Over V ↔ a.Over V := by
  rw [over_iff]
  simp [Fits, children]

@[simp] theorem over_binary {op : BinOp} {a b : Expr} :
    (binary op a b).Over V ↔ a.Over V ∧ b.Over V := by
  rw [over_iff]
  simp [Fits, children]

@[simp] theorem over_call {f : Fn} {a : Expr} : (call f a).Over V ↔ a.Over V := by
  rw [over_iff]
  simp [Fits, children]

@[simp] theorem over_powCall {a b : Expr} : (powCall a b).Over V ↔ a.Over V ∧ b.Over V := by
  rw [over_iff]
  simp [Fits, children]

@[simp] theorem over_unknown {n : String} {a : Expr} {rest : List Expr} :
    (unknown n a rest).Over V ↔ V.hasFn n ∧ a.Over V ∧ ∀ e ∈ rest, e.Over V := by
  rw [over_iff]
  simp [Fits, children]

@[simp] theorem over_oddVar {n : OddName} : (oddVar n).Over V ↔ V.hasOdd n := by
  rw [over_iff]
  simp [Fits, children]

theorem not_over_blank : ¬ blank.Over V := fun h => h [] _ rfl

theorem not_over_pair {a b : Expr} : ¬ (pair a b).Over V := fun h => h [] _ rfl

theorem not_over_datum {j : Json} : ¬ (datum j).Over V := fun h => h [] _ rfl

theorem Over.mono {e : Expr} (h : e.Over V) (hvar : ∀ x, V.hasVar x → W.hasVar x)
    (hfn : ∀ n, V.hasFn n → W.hasFn n) (hodd : ∀ n, V.hasOdd n → W.hasOdd n) : e.Over W := by
  intro place t ht
  have hfits := h place t ht
  cases t with
  | var x => exact hvar x hfits
  | unknown n a rest => exact hfn n hfits
  | oddVar n => exact hodd n hfits
  | blank | pair | datum => exact hfits
  | const | neg | binary | call | powCall => trivial

end Over

/-- All names, and the odd ones too. -/
def Vocabulary.any : Vocabulary := ⟨fun _ => True, fun _ => True, fun _ => True⟩

/-- All names that are texts. -/
def Vocabulary.all : Vocabulary := ⟨fun _ => True, fun _ => True, fun _ => False⟩

/-- The names of a tree that are texts. -/
def vocabulary (e : Expr) : Vocabulary := ⟨(· ∈ e.variableNames), e.Calls, fun _ => False⟩

/-- Any variables, and no unknown functions. -/
def Vocabulary.known : Vocabulary := ⟨fun _ => True, fun _ => False, fun _ => False⟩

/-- Any variables, and the functions that are indeed unknown. -/
def Vocabulary.proper : Vocabulary :=
  ⟨fun _ => True, fun n => Callee.ofName n = .unknown n, fun _ => False⟩

/-- The variables that have values; an unknown function has none, and neither has an odd name. -/
def Vocabulary.bound {β : Type} (ρ : String → Option β) : Vocabulary :=
  ⟨fun x => (ρ x).isSome = true, fun _ => False, fun _ => False⟩

theorem over_all_iff {e : Expr} : e.Over .all ↔ e.obstacle = none := by
  induction e with
  | const | var => simp [Vocabulary.all, obstacle]
  | neg a iha | call f a iha => simpa [obstacle] using iha
  | binary op a b iha ihb | powCall a b iha ihb => simp [obstacle, iha, ihb]
  | unknown n a rest iha ihrest =>
    rw [over_unknown, obstacle, orElse_eq_none_iff, finished_iff_of_mem, iha,
      forall₂_congr ihrest]
    exact iff_of_eq (true_and _)
  | blank => simp [not_over_blank, obstacle]
  | pair a b => simp [not_over_pair, obstacle]
  | datum j => simp [not_over_datum, obstacle]
  | oddVar n => simp [Vocabulary.all, obstacle]

theorem over_any_iff {e : Expr} : e.Over .any ↔ e.simplifyObstacle = none := by
  induction e with
  | const | var | oddVar => simp [Vocabulary.any, simplifyObstacle]
  | neg a iha | call f a iha => simpa [simplifyObstacle] using iha
  | binary op a b iha ihb | powCall a b iha ihb => simp [simplifyObstacle, iha, ihb]
  | unknown n a rest iha ihrest =>
    rw [over_unknown, simplifyObstacle, orElse_eq_none_iff, anySimplifyObstacle_eq_none_iff, iha,
      forall₂_congr ihrest]
    exact iff_of_eq (true_and _)
  | blank => simp [not_over_blank, simplifyObstacle]
  | pair a b => simp [not_over_pair, simplifyObstacle]
  | datum j => simp [not_over_datum, simplifyObstacle]

theorem Over.finished {V : Vocabulary} {e : Expr} (h : e.Over V) (hodd : ∀ n, ¬ V.hasOdd n) :
    e.obstacle = none :=
  over_all_iff.mp (h.mono (fun _ _ => trivial) (fun _ _ => trivial) hodd)

theorem over_vocabulary {e : Expr} (h : e.obstacle = none) : e.Over e.vocabulary := by
  intro place t ht
  have hfits := over_all_iff.mpr h place t ht
  cases t with
  | var x => exact mem_variableNames_iff.mpr ⟨place, ht⟩
  | unknown n a rest => exact ⟨a, rest, place, ht⟩
  | blank | pair | datum | oddVar => exact hfits
  | const | neg | binary | call | powCall => trivial

theorem Over.hasVar_of_mem {V : Vocabulary} {e : Expr} (h : e.Over V) {x : String}
    (hx : x ∈ e.variableNames) : V.hasVar x := by
  obtain ⟨place, ht⟩ := mem_variableNames_iff.mp hx
  exact h place _ ht

theorem Over.hasFn_of_calls {V : Vocabulary} {e : Expr} (h : e.Over V) {n : String}
    (hn : e.Calls n) : V.hasFn n := by
  obtain ⟨a, rest, place, ht⟩ := hn
  exact h place _ ht

theorem wellFormed_iff_over {e : Expr} : e.WellFormed ↔ e.Over .proper := by
  induction e with
  | const | var => simp [WellFormed, Vocabulary.proper]
  | neg a iha | call f a iha => simpa [WellFormed] using iha
  | binary op a b iha ihb | powCall a b iha ihb => simp [WellFormed, iha, ihb]
  | unknown n a rest iha ihrest =>
    rw [over_unknown, WellFormed, allWellFormed_iff, iha, forall₂_congr ihrest]
    rfl
  | blank => simp [WellFormed, not_over_blank]
  | pair a b => simp [WellFormed, not_over_pair]
  | datum j => simp [WellFormed, not_over_datum]
  | oddVar n => simp [WellFormed, Vocabulary.proper]

/-! ## What keeps a tree over a vocabulary -/

section Steps

variable {V W : Vocabulary}

theorem over_outer {u : Expr} (f : Fn) (h : u.Over V) : (outer f u).Over V := by
  cases f <;> simp [outer, add, sub, mul, div, power, one, two, h]

theorem over_powerRule {f g f' g' : Expr} (hf : f.Over V) (hg : g.Over V) (hf' : f'.Over V)
    (hg' : g'.Over V) : (powerRule f g f' g').Over V := by
  simp [powerRule, add, mul, div, power, hf, hg, hf', hg']

theorem over_deriv {e : Expr} (x : String) (h : e.Over V) : (deriv x e).Over V := by
  induction e with
  | const | oddVar => exact over_const _
  | var y =>
    unfold deriv
    split_ifs <;> exact over_const _
  | neg a iha => exact over_neg.mpr (iha (over_neg.mp h))
  | binary op a b iha ihb =>
    obtain ⟨ha, hb⟩ := over_binary.mp h
    cases op with
    | add | sub => simp [deriv, add, sub, iha ha, ihb hb]
    | mul => simp [deriv, add, mul, ha, hb, iha ha, ihb hb]
    | div => simp [deriv, div, sub, mul, power, two, ha, hb, iha ha, ihb hb]
    | pow => exact over_powerRule ha hb (iha ha) (ihb hb)
  | call f a iha =>
    have ha := over_call.mp h
    exact over_binary.mpr ⟨over_outer f ha, iha ha⟩
  | powCall a b iha ihb =>
    obtain ⟨ha, hb⟩ := over_powCall.mp h
    exact over_powerRule ha hb (iha ha) (ihb hb)
  | unknown n a rest iha ihrest => exact iha (over_unknown.mp h).2.1
  | blank => exact (not_over_blank h).elim
  | pair a b => exact (not_over_pair h).elim
  | datum j => exact (not_over_datum h).elim

theorem finished_deriv {e : Expr} (x : String) (h : e.obstacle = none) :
    (deriv x e).obstacle = none :=
  over_all_iff.mp (over_deriv x (over_all_iff.mpr h))

theorem Contracts.over {e e' : Expr} (h : Contracts e e') (he : e.Over V) : e'.Over V := by
  cases h with
  | kept _ => exact he
  | folded _ x => exact over_const x
  | chosen _ hc => exact (over_iff.mp he).2 _ hc
  | negated _ heq _ =>
    subst heq
    exact over_neg.mpr (over_binary.mp he).2
  | uncovered _ heq =>
    subst heq
    exact over_call.mp (over_call.mp he)

theorem over_simplifyWith (A : Arithmetic Float) {e : Expr} (h : e.Over V) :
    (simplifyWith A e).Over V := by
  induction e with
  | const | var => exact h
  | neg a iha => exact (contracts_neg A _).over (over_neg.mpr (iha (over_neg.mp h)))
  | binary op a b iha ihb =>
    obtain ⟨ha, hb⟩ := over_binary.mp h
    exact (contracts_binary A op _ _).over (over_binary.mpr ⟨iha ha, ihb hb⟩)
  | call f a iha => exact (contracts_call A f _).over (over_call.mpr (iha (over_call.mp h)))
  | powCall a b iha ihb =>
    obtain ⟨ha, hb⟩ := over_powCall.mp h
    exact (contracts_pow A rfl rfl).over (over_powCall.mpr ⟨iha ha, ihb hb⟩)
  | unknown n a rest iha ihrest =>
    obtain ⟨hn, ha, hrest⟩ := over_unknown.mp h
    rw [simplifyWith, simplifyAllWith_eq_map]
    refine over_unknown.mpr ⟨hn, iha ha, List.forall_mem_map.mpr ?_⟩
    exact fun e he => ihrest e he (hrest e he)
  | blank | pair | datum | oddVar => exact h

theorem substAll_eq_map (σ : String → Option Expr) (es : List Expr) :
    substAll σ es = es.map (subst σ) := by
  induction es with
  | nil => rfl
  | cons e es ih => rw [substAll, ih, List.map_cons]

theorem over_subst {σ : String → Option Expr} {e : Expr} (h : e.Over V)
    (hvar : ∀ x, V.hasVar x → ((σ x).getD (var x)).Over W)
    (hfn : ∀ n, V.hasFn n → W.hasFn n) (hodd : ∀ n, V.hasOdd n → W.hasOdd n) :
    (e.subst σ).Over W := by
  induction e with
  | const c => exact over_const c
  | var x => exact hvar x (over_var.mp h)
  | neg a iha => exact over_neg.mpr (iha (over_neg.mp h))
  | binary op a b iha ihb =>
    obtain ⟨ha, hb⟩ := over_binary.mp h
    exact over_binary.mpr ⟨iha ha, ihb hb⟩
  | call f a iha => exact over_call.mpr (iha (over_call.mp h))
  | powCall a b iha ihb =>
    obtain ⟨ha, hb⟩ := over_powCall.mp h
    exact over_powCall.mpr ⟨iha ha, ihb hb⟩
  | unknown n a rest iha ihrest =>
    obtain ⟨hn, ha, hrest⟩ := over_unknown.mp h
    rw [subst, substAll_eq_map]
    refine over_unknown.mpr ⟨hfn n hn, iha ha, List.forall_mem_map.mpr ?_⟩
    exact fun e he => ihrest e he (hrest e he)
  | blank => exact (not_over_blank h).elim
  | pair a b => exact (not_over_pair h).elim
  | datum j => exact (not_over_datum h).elim
  | oddVar n => exact over_oddVar.mpr (hodd n (over_oddVar.mp h))

end Steps

/-! ## Evaluation -/

/-- A tree has a value at numbers exactly if all its variables do and it calls no unknown function. -/
theorem evaluates_iff {A : Arithmetic Float} {ρ : String → Option Float} {e : Expr} :
    (∃ v, e.evalWith (.scalar A id) ρ = .ok v) ↔ e.Over (.bound ρ) := by
  induction e with
  | const c => simp [evalWith]
  | var x =>
    rw [over_var]
    show _ ↔ (ρ x).isSome = true
    unfold evalWith
    cases ρ x <;> simp
  | neg a iha | call f a iha =>
    unfold evalWith
    simp only [over_neg, over_call, ← iha]
    cases a.evalWith (.scalar A id) ρ <;> simp [bind, Except.bind, pure, Except.pure]
  | binary op a b iha ihb | powCall a b iha ihb =>
    unfold evalWith
    simp only [over_binary, over_powCall, ← iha, ← ihb]
    cases a.evalWith (.scalar A id) ρ <;> cases b.evalWith (.scalar A id) ρ <;>
      simp [bind, Except.bind, Interp.scalar]
  | unknown n a rest => simp [evalWith, Vocabulary.bound]
  | blank => simp [evalWith, not_over_blank]
  | pair a b => simp [evalWith, not_over_pair]
  | datum j => simp [evalWith, not_over_datum]
  | oddVar n => simp [evalWith, Vocabulary.bound]

end Nabla.Expr
