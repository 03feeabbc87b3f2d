import Mathlib.Tactic.Common
import Nabla.Proofs.Tree

/-!
# Normal forms of simplification

A rule is applied to a node over simplified parts. `Contracts` says all that a rule can make of such
a node; that one pass reaches a normal form, that a second one changes nothing and that trees only
shrink is read off it.
-/

namespace Nabla.Expr

/-! ## Places in a tree -/

/-- The part at a place, which says which part of each node to go to. -/
def part? : List Nat → Expr → Option Expr
  | [], e => some e
  | i :: place, e => (e.children[i]?).bind (part? place)

theorem forall_part_iff {P : Expr → Prop} {e : Expr} :
    (∀ place t, e.part? place = some t → P t) ↔
      P e ∧ ∀ c ∈ e.children, ∀ place t, c.part? place = some t → P t := by
  constructor
  · intro h
    refine ⟨h [] e rfl, fun c hc place t ht => ?_⟩
    obtain ⟨i, hi⟩ := List.mem_iff_getElem?.mp hc
    exact h (i :: place) t (by rw [part?, hi, Option.bind_some, ht])
  · rintro ⟨hr, hc⟩ place t ht
    cases place with
    | nil =>
      cases ht
      exact hr
    | cons i place =>
      obtain ⟨c, hi, ht⟩ := Option.bind_eq_some_iff.mp ht
      exact hc c (List.mem_of_getElem? hi) place t ht

/-- The node over other parts, as many as it has. -/
def withChildren : Expr → List Expr → Expr
  | neg _, [a] => neg a
  | binary op _ _, [a, b] => binary op a b
  | call f _, [a] => call f a
  | powCall _ _, [a, b] => powCall a b
  | unknown n _ _, a :: rest => unknown n a rest
  | pair _ _, [a, b] => pair a b
  | e, _ => e

/-- The tree with another part at a place. -/
def replaceAt : List Nat → Expr → Expr → Expr
  | [], _, new => new
  | i :: place, e, new => e.withChildren (e.children.modify i (replaceAt place · new))

/-! ## Normal forms -/

/-- A logarithm of an exponential, or the other way round. -/
def cancels : Fn → Expr → Bool
  | .log, call .exp _ => true
  | .exp, call .log _ => true
  | _, _ => false

/-- Whether a rule applies to a power, in either spelling. Zero to the power of zero is left
alone. -/
def isPowRedex (a b : Expr) : Bool :=
  !(a.isZero && b.isZero) &&
    (a.isConst && b.isConst || a.isZero || a.isOne || b.isZero || b.isOne)

/-- Whether a rule applies to the node itself. A division by zero is left alone. -/
def isRedex : Expr → Bool
  | neg a => a.isConst
  | binary .add a b | binary .sub a b => a.isConst && b.isConst || a.isZero || b.isZero
  | binary .mul a b => a.isConst && b.isConst || a.isZero || b.isZero || a.isOne || b.isOne
  | binary .div a b => !b.isZero && (a.isConst && b.isConst || b.isOne || a == b || a.isZero)
  | binary .pow a b | powCall a b => isPowRedex a b
  | call f a => a.isConst || cancels f a
  | _ => false

/-- No rule applies to any node, at whatever depth. -/
def Normal (e : Expr) : Prop := ∀ place t, e.part? place = some t → t.isRedex = false

theorem normal_iff {e : Expr} : e.Normal ↔ e.isRedex = false ∧ ∀ c ∈ e.children, c.Normal :=
  forall_part_iff (P := fun t => t.isRedex = false)

theorem normal_const (x : Float) : (const x).Normal := normal_iff.mpr ⟨rfl, fun _ h => nomatch h⟩

/-! ## What a rule can do -/

/-- What a rule makes of a node over simplified parts. -/
inductive Contracts (e : Expr) : Expr → Prop where
  | kept (h : e.isRedex = false) : Contracts e e
  | folded (h : e.isRedex = true) (x : Float) : Contracts e (const x)
  | chosen {c : Expr} (h : e.isRedex = true) (hc : c ∈ e.children) : Contracts e c
  /-- Zero minus something that is no constant. -/
  | negated {a b : Expr} (h : e.isRedex = true) (he : e = sub a b) (hb : b.isConst = false) :
    Contracts e (neg b)
  /-- A logarithm and an exponential are taken away. -/
  | uncovered {f g : Fn} {u : Expr} (h : e.isRedex = true) (he : e = call f (call g u)) :
    Contracts e u

theorem isConst_eq_false {a : Expr} (h : ∀ x, a = const x → False) : a.isConst = false := by
  cases a with
  | const x => exact (h x rfl).elim
  | _ => rfl

theorem isZero_eq_false {a : Expr} (h : a.isConst = false) : a.isZero = false := by
  cases a with
  | const x => cases h
  | _ => rfl

theorem isOne_eq_false {a : Expr} (h : a.isConst = false) : a.isOne = false := by
  cases a with
  | const x => cases h
  | _ => rfl

section Rules

variable (A : Arithmetic Float)

theorem contracts_neg (a : Expr) : Contracts (neg a) (simplifyNeg A a) := by
  unfold simplifyNeg
  split
  · exact .folded rfl _
  · rename_i h
    exact .kept (isConst_eq_false h)

theorem contracts_add (a b : Expr) : Contracts (binary .add a b) (simplifyAdd A a b) := by
  unfold simplifyAdd
  split
  · exact .folded rfl _
  · rename_i x b hb
    have hb := isConst_eq_false hb
    split_ifs with h0
    · exact .chosen (by simp [isRedex, isZero, h0]) (by simp [children])
    · exact .kept (by simp [isRedex, isZero, h0, hb])
  · rename_i a y ha
    have ha := isConst_eq_false ha
    split_ifs with h0
    · exact .chosen (by simp [isRedex, isZero, h0]) (by simp [children])
    · exact .kept (by simp [isRedex, isZero, h0, ha])
  · rename_i ha hb _
    have ha := isConst_eq_false ha
    have hb := isConst_eq_false hb
    exact .kept (by simp [isRedex, ha, isZero_eq_false ha, isZero_eq_false hb])

theorem contracts_sub (a b : Expr) : Contracts (binary .sub a b) (simplifySub A a b) := by
  unfold simplifySub
  split
  · exact .folded rfl _
  · rename_i x b hb
    have hb := isConst_eq_false hb
    split_ifs with h0
    · exact .negated (by simp [isRedex, isZero, h0]) rfl hb
    · exact .kept (by simp [isRedex, isZero, h0, hb])
  · rename_i a y ha
    have ha := isConst_eq_false ha
    split_ifs with h0
    · exact .chosen (by simp [isRedex, isZero, h0]) (by simp [children])
    · exact .kept (by simp [isRedex, isZero, h0, ha])
  · rename_i ha hb _
    have ha := isConst_eq_false ha
    have hb := isConst_eq_false hb
    exact .kept (by simp [isRedex, ha, isZero_eq_false ha, isZero_eq_false hb])

theorem contracts_mul (a b : Expr) : Contracts (binary .mul a b) (simplifyMul A a b) := by
  unfold simplifyMul
  split
  · exact .folded rfl _
  · rename_i x b hb
    have hb := isConst_eq_false hb
    split_ifs with h0 h1
    · exact .folded (by simp [isRedex, isZero, h0]) _
    · exact .chosen (by simp [isRedex, isOne, h1]) (by simp [children])
    · exact .kept (by simp [isRedex, isZero, isOne, h0, h1, hb])
  · rename_i a y ha
    have ha := isConst_eq_false ha
    split_ifs with h0 h1
    · exact .folded (by simp [isRedex, isZero, h0]) _
    · exact .chosen (by simp [isRedex, isOne, h1]) (by simp [children])
    · exact .kept (by simp [isRedex, isZero, isOne, h0, h1, ha])
  · rename_i ha hb _
    have ha := isConst_eq_false ha
    have hb := isConst_eq_false hb
    exact .kept (by simp [isRedex, ha, isZero_eq_false ha, isZero_eq_false hb, isOne_eq_false ha,
      isOne_eq_false hb])

theorem foldOr_cases (op : BinOp) (rebuild : Expr → Expr → Expr) (a b : Expr) :
    (a.isConst && b.isConst) = true ∧ (∃ x, foldOr A op rebuild a b = const x) ∨
      (a.isConst && b.isConst) = false ∧ foldOr A op rebuild a b = rebuild a b := by
  unfold foldOr
  split
  · exact Or.inl ⟨rfl, _, rfl⟩
  · rename_i h
    refine Or.inr ⟨?_, rfl⟩
    cases a with
    | const x => exact isConst_eq_false fun y hy => h x y rfl hy
    | _ => rfl

theorem contracts_div (a b : Expr) : Contracts (binary .div a b) (simplifyDiv A a b) := by
  unfold simplifyDiv
  split_ifs with hb0 hab ha0 hb1
  · exact .kept (by simp [isRedex, hb0])
  · exact .folded (by simp [isRedex, hb0, hab]) _
  · exact .folded (by simp [isRedex, hb0, ha0]) _
  · exact .chosen (by simp [isRedex, hb0, hb1]) (by simp [children])
  · rcases foldOr_cases A .div div a b with ⟨hc, x, hx⟩ | ⟨hc, hx⟩
    · rw [hx]
      exact .folded (by simp [isRedex, hb0, hc]) x
    · rw [hx]
      exact .kept (by simp [isRedex, hab, ha0, hb1, hc])

theorem contracts_pow {rebuild : Expr → Expr → Expr} {a b : Expr}
    (hr : (rebuild a b).isRedex = isPowRedex a b) (hc : (rebuild a b).children = [a, b]) :
    Contracts (rebuild a b) (simplifyPow A rebuild a b) := by
  unfold simplifyPow
  split_ifs with ha0 hb0 h1 hb1
  · exact .kept (by simp [hr, isPowRedex, ha0, hb0])
  · exact .folded (by simp [hr, isPowRedex, ha0, hb0]) _
  · refine .folded ?_ _
    rcases Bool.or_eq_true_iff.mp h1 with h | h <;> simp [hr, isPowRedex, ha0, h]
  · exact .chosen (by simp [hr, isPowRedex, ha0, hb1]) (by simp [hc])
  · rcases foldOr_cases A .pow rebuild a b with ⟨hcc, x, hx⟩ | ⟨hcc, hx⟩
    · rw [hx]
      exact .folded (by simp [hr, isPowRedex, ha0, hcc]) x
    · rw [hx]
      rw [Bool.or_eq_true, not_or] at h1
      exact .kept (by simp [hr, isPowRedex, ha0, h1.1, h1.2, hb1, hcc])

theorem contracts_call (f : Fn) (a : Expr) : Contracts (call f a) (simplifyCall A f a) := by
  unfold simplifyCall
  split
  · exact .folded rfl _
  · exact .uncovered rfl rfl
  · exact .uncovered rfl rfl
  · rename_i hconst hlog hexp
    refine .kept ?_
    have hc : cancels f a = false := by
      unfold cancels
      split
      · exact (hlog _ rfl rfl).elim
      · exact (hexp _ rfl rfl).elim
      · rfl
    simp [isRedex, isConst_eq_false hconst, hc]

theorem contracts_binary (op : BinOp) (a b : Expr) :
    Contracts (binary op a b) (simplifyBinary A op a b) := by
  cases op with
  | add => exact contracts_add A a b
  | sub => exact contracts_sub A a b
  | mul => exact contracts_mul A a b
  | div => exact contracts_div A a b
  | pow => exact contracts_pow A rfl rfl

end Rules

theorem size_pos (e : Expr) : 0 < e.size := by
  cases e <;> simp [size]

theorem size_le_sizeAll {es : List Expr} {e : Expr} (h : e ∈ es) : e.size ≤ sizeAll es := by
  induction es with
  | nil => exact nomatch h
  | cons e' es ih =>
    rw [sizeAll]
    rcases List.mem_cons.mp h with rfl | h
    · omega
    · have := ih h
      omega

theorem size_lt_of_mem_children {e c : Expr} (h : c ∈ e.children) : c.size < e.size := by
  cases e with
  | const | var | blank | datum | oddVar => exact nomatch h
  | neg a | call f a =>
    rw [List.mem_singleton.mp h, size]
    omega
  | binary op a b | powCall a b | pair a b =>
    rw [size]
    have h : c = a ∨ c = b := by simpa [children] using h
    rcases h with rfl | rfl <;> omega
  | unknown n a rest =>
    rw [size]
    rcases List.mem_cons.mp h with rfl | h
    · omega
    · have := size_le_sizeAll h
      omega

theorem one_lt_size_of_isRedex {e : Expr} (h : e.isRedex = true) : 1 < e.size := by
  cases e with
  | const | var | unknown | blank | pair | datum | oddVar => exact nomatch h
  | neg a | call f a =>
    have := a.size_pos
    rw [size]
    omega
  | binary op a b | powCall a b =>
    have := a.size_pos
    rw [size]
    omega

theorem finished_of_mem_children {e c : Expr} (h : e.obstacle = none) (hc : c ∈ e.children) :
    c.obstacle = none := by
  cases e with
  | const | var => cases hc
  | neg a | call f a =>
    rw [List.mem_singleton.mp hc]
    exact h
  | binary op a b | powCall a b =>
    obtain ⟨ha, hb⟩ := orElse_eq_none_iff.mp h
    have hc : c = a ∨ c = b := by simpa [children] using hc
    rcases hc with rfl | rfl
    · exact ha
    · exact hb
  | unknown n a rest =>
    obtain ⟨ha, hrest⟩ := orElse_eq_none_iff.mp h
    rcases List.mem_cons.mp hc with rfl | hc
    · exact ha
    · exact finished_iff_of_mem.mp hrest c hc
  | blank | pair | datum | oddVar => cases h

namespace Contracts

variable {e e' : Expr}

theorem eq_self (h : Contracts e e') (hr : e.isRedex = false) : e' = e := by
  cases h with
  | kept _ => rfl
  | folded h _ | chosen h _ | negated h _ _ | uncovered h _ =>
    rw [hr] at h
    cases h

theorem normal (h : Contracts e e') (hc : ∀ c ∈ e.children, c.Normal) : e'.Normal := by
  cases h with
  | kept h => exact normal_iff.mpr ⟨h, hc⟩
  | folded _ x => exact normal_const x
  | chosen _ hmem => exact hc _ hmem
  | @negated a b _ he hb =>
    subst he
    exact normal_iff.mpr ⟨hb, fun c hmem => hc c (List.mem_cons_of_mem a hmem)⟩
  | uncovered _ he =>
    subst he
    exact (normal_iff.mp (hc _ List.mem_cons_self)).2 _ List.mem_cons_self

theorem finished (h : Contracts e e') (he : e.obstacle = none) : e'.obstacle = none := by
  cases h with
  | kept _ => exact he
  | folded _ x => rfl
  | chosen _ hmem => exact finished_of_mem_children he hmem
  | negated _ heq _ =>
    subst heq
    exact (orElse_eq_none_iff.mp he).2
  | uncovered _ heq =>
    subst heq
    exact he

theorem size_le (h : Contracts e e') : e' = e ∨ e'.size < e.size := by
  cases h with
  | kept _ => exact Or.inl rfl
  | folded h x => exact Or.inr (one_lt_size_of_isRedex h)
  | chosen _ hmem => exact Or.inr (size_lt_of_mem_children hmem)
  | @negated a b _ he _ =>
    subst he
    have := a.size_pos
    right
    simp only [sub, size]
    omega
  | uncovered _ he =>
    subst he
    right
    simp only [size]
    omega

theorem shrinks {e₀ : Expr} (h : Contracts e e') (h₀ : e = e₀ ∨ e.size < e₀.size) :
    e' = e₀ ∨ e'.size < e₀.size := by
  rcases h.size_le with rfl | hlt
  · exact h₀
  · rcases h₀ with rfl | h₀
    · exact Or.inr hlt
    · exact Or.inr (Nat.lt_trans hlt h₀)

end Contracts

/-! ## One pass -/

section Pass

variable (A : Arithmetic Float)

theorem simplifyAllWith_eq_map (es : List Expr) :
    simplifyAllWith A es = es.map (simplifyWith A) := by
  induction es with
  | nil => rfl
  | cons e es ih => rw [simplifyAllWith, ih, List.map_cons]

theorem finished_simplifyWith {A : Arithmetic Float} {e : Expr} (h : e.obstacle = none) :
    (simplifyWith A e).obstacle = none := by
  induction e with
  | const | var => rfl
  | neg a iha => exact (contracts_neg A _).finished (iha h)
  | binary op a b iha ihb =>
    obtain ⟨ha, hb⟩ := orElse_eq_none_iff.mp h
    exact (contracts_binary A op _ _).finished (finished_binary op (iha ha) (ihb hb))
  | call f a iha => exact (contracts_call A f _).finished (iha h)
  | powCall a b iha ihb =>
    obtain ⟨ha, hb⟩ := orElse_eq_none_iff.mp h
    exact (contracts_pow A rfl rfl).finished (orElse_eq_none_iff.mpr ⟨iha ha, ihb hb⟩)
  | unknown n a rest iha ihrest =>
    obtain ⟨ha, hrest⟩ := orElse_eq_none_iff.mp h
    rw [simplifyWith, simplifyAllWith_eq_map]
    refine orElse_eq_none_iff.mpr ⟨iha ha, finished_iff_of_mem.mpr (List.forall_mem_map.mpr ?_)⟩
    exact fun e he => ihrest e he (finished_iff_of_mem.mp hrest e he)
  | blank | pair | datum | oddVar => exact nomatch h

theorem normal_simplifyWith {e : Expr} (h : e.obstacle = none) : (simplifyWith A e).Normal := by
  induction e with
  | const | var => exact normal_iff.mpr ⟨rfl, fun _ h => nomatch h⟩
  | neg a iha => exact (contracts_neg A _).normal (List.forall_mem_singleton.mpr (iha h))
  | binary op a b iha ihb =>
    obtain ⟨ha, hb⟩ := orElse_eq_none_iff.mp h
    exact (contracts_binary A op _ _).normal (by simp [children, iha ha, ihb hb])
  | call f a iha => exact (contracts_call A f _).normal (List.forall_mem_singleton.mpr (iha h))
  | powCall a b iha ihb =>
    obtain ⟨ha, hb⟩ := orElse_eq_none_iff.mp h
    exact (contracts_pow A rfl rfl).normal (by simp [children, iha ha, ihb hb])
  | unknown n a rest iha ihrest =>
    obtain ⟨ha, hrest⟩ := orElse_eq_none_iff.mp h
    -- There is no rule for an unknown function.
    rw [simplifyWith, simplifyAllWith_eq_map]
    refine normal_iff.mpr ⟨rfl, List.forall_mem_cons.mpr ⟨iha ha, ?_⟩⟩
    rw [List.forall_mem_map]
    exact fun e he => ihrest e he (finished_iff_of_mem.mp hrest e he)
  | blank | pair | datum | oddVar => cases h

theorem simplifyWith_of_normal {e : Expr} (h : e.Normal) : simplifyWith A e = e := by
  induction e with
  | const | var | blank | pair | datum | oddVar => rfl
  | neg a iha =>
    obtain ⟨hr, hc⟩ := normal_iff.mp h
    rw [simplifyWith, iha (hc a (by simp [children]))]
    exact (contracts_neg A a).eq_self hr
  | binary op a b iha ihb =>
    obtain ⟨hr, hc⟩ := normal_iff.mp h
    rw [simplifyWith, iha (hc a (by simp [children])), ihb (hc b (by simp [children]))]
    exact (contracts_binary A op a b).eq_self hr
  | call f a iha =>
    obtain ⟨hr, hc⟩ := normal_iff.mp h
    rw [simplifyWith, iha (hc a (by simp [children]))]
    exact (contracts_call A f a).eq_self hr
  | powCall a b iha ihb =>
    obtain ⟨hr, hc⟩ := normal_iff.mp h
    rw [simplifyWith, iha (hc a (by simp [children])), ihb (hc b (by simp [children]))]
    exact (contracts_pow A rfl rfl).eq_self hr
  | unknown n a rest iha ihrest =>
    obtain ⟨-, hc⟩ := normal_iff.mp h
    obtain ⟨ha, hrest⟩ := List.forall_mem_cons.mp hc
    rw [simplifyWith, iha ha, simplifyAllWith_eq_map,
      List.map_congr_left (fun e he => ihrest e he (hrest e he)), List.map_id']

theorem simplifyWith_idem {e : Expr} (h : e.obstacle = none) :
    simplifyWith A (simplifyWith A e) = simplifyWith A e :=
  simplifyWith_of_normal A (normal_simplifyWith A h)

theorem stays_or_shrinks {α β : Type} {f : α → Nat} {g : β → Nat} {x x' : α} {y y' : β}
    (hx : x' = x ∨ f x' < f x) (hy : y' = y ∨ g y' < g y) :
    x' = x ∧ y' = y ∨ f x' + g y' < f x + g y := by
  rcases hx with rfl | hx <;> rcases hy with rfl | hy
  · exact Or.inl ⟨rfl, rfl⟩
  all_goals omega

theorem sizeAll_simplifyAllWith {es : List Expr}
    (h : ∀ e ∈ es, simplifyWith A e = e ∨ (simplifyWith A e).size < e.size) :
    simplifyAllWith A es = es ∨ sizeAll (simplifyAllWith A es) < sizeAll es := by
  induction es with
  | nil => exact Or.inl rfl
  | cons e es ih =>
    obtain ⟨he, hes⟩ := List.forall_mem_cons.mp h
    rw [simplifyAllWith, sizeAll, sizeAll]
    rcases stays_or_shrinks he (ih hes) with ⟨he, hes⟩ | hlt
    · exact Or.inl (by rw [he, hes])
    · exact Or.inr hlt

theorem size_simplifyWith (e : Expr) : simplifyWith A e = e ∨ (simplifyWith A e).size < e.size := by
  induction e with
  | const | var | blank | pair | datum | oddVar => exact Or.inl rfl
  | neg a iha =>
    refine (contracts_neg A _).shrinks ?_
    rcases iha with h | h
    · exact Or.inl (by rw [h])
    · exact Or.inr (Nat.succ_lt_succ h)
  | call f a iha =>
    refine (contracts_call A f _).shrinks ?_
    rcases iha with h | h
    · exact Or.inl (by rw [h])
    · exact Or.inr (Nat.succ_lt_succ h)
  | binary op a b iha ihb =>
    refine (contracts_binary A op _ _).shrinks ?_
    rcases stays_or_shrinks iha ihb with ⟨ha, hb⟩ | hlt
    · exact Or.inl (by rw [ha, hb])
    · exact Or.inr (Nat.succ_lt_succ hlt)
  | powCall a b iha ihb =>
    refine (contracts_pow A rfl rfl).shrinks ?_
    rcases stays_or_shrinks iha ihb with ⟨ha, hb⟩ | hlt
    · exact Or.inl (by rw [ha, hb])
    · exact Or.inr (Nat.succ_lt_succ hlt)
  | unknown n a rest iha ihrest =>
    rcases stays_or_shrinks iha (sizeAll_simplifyAllWith A ihrest) with ⟨ha, hrest⟩ | hlt
    · exact Or.inl (by rw [simplifyWith, ha, hrest])
    · exact Or.inr (Nat.succ_lt_succ hlt)

end Pass

/-! ## Parts that were simplified before -/

theorem finished_part? {place : List Nat} {e t : Expr} (h : e.obstacle = none)
    (ht : e.part? place = some t) : t.obstacle = none := by
  induction place generalizing e with
  | nil =>
    cases ht
    exact h
  | cons i place ih =>
    obtain ⟨c, hc, ht⟩ := Option.bind_eq_some_iff.mp ht
    exact ih (finished_of_mem_children h (List.mem_of_getElem? hc)) ht

theorem finished_withChildren {e : Expr} {cs : List Expr} (h : e.obstacle = none)
    (hcs : ∀ c ∈ cs, c.obstacle = none) : (e.withChildren cs).obstacle = none := by
  unfold withChildren
  split
  · rename_i a
    exact hcs a List.mem_cons_self
  · exact finished_binary _ (hcs _ (by simp)) (hcs _ (by simp))
  · rename_i a
    exact hcs a List.mem_cons_self
  · exact orElse_eq_none_iff.mpr ⟨hcs _ (by simp), hcs _ (by simp)⟩
  · rename_i a rest
    exact orElse_eq_none_iff.mpr ⟨hcs a (by simp),
      finished_iff_of_mem.mpr fun c hc => hcs c (List.mem_cons_of_mem a hc)⟩
  · exact nomatch h
  · exact h

theorem finished_replaceAt {place : List Nat} {e new : Expr} (h : e.obstacle = none)
    (hnew : new.obstacle = none) : (e.replaceAt place new).obstacle = none := by
  induction place generalizing e with
  | nil => exact hnew
  | cons i place ih =>
    refine finished_withChildren h fun c hc => ?_
    obtain ⟨j, hj⟩ := List.mem_iff_getElem?.mp hc
    rw [List.getElem?_modify] at hj
    obtain ⟨c', hc', rfl⟩ := Option.map_eq_some_iff.mp hj
    have hfin := finished_of_mem_children h (List.mem_of_getElem? hc')
    split
    · exact ih hfin
    · exact hfin

section Replace

variable (A : Arithmetic Float)

theorem simplifyWith_withChildren {e : Expr} {cs : List Expr} (h : e.obstacle = none)
    (hcs : cs.map (simplifyWith A) = e.children.map (simplifyWith A)) :
    simplifyWith A (e.withChildren cs) = simplifyWith A e := by
  cases e with
  | const | var => rfl
  | neg a | call f a =>
    obtain ⟨c, rfl, hc⟩ := List.map_eq_singleton_iff.mp hcs
    simp only [withChildren, simplifyWith, hc]
  | binary op a b | powCall a b =>
    obtain ⟨c, cs, rfl, hc, hcs⟩ := List.map_eq_cons_iff.mp hcs
    obtain ⟨d, rfl, hd⟩ := List.map_eq_singleton_iff.mp hcs
    simp only [withChildren, simplifyWith, hc, hd]
  | unknown n a rest =>
    obtain ⟨c, cs, rfl, hc, hcs⟩ := List.map_eq_cons_iff.mp hcs
    simp only [withChildren, simplifyWith, simplifyAllWith_eq_map, hc, hcs]
  | blank | pair | datum | oddVar => exact nomatch h

theorem map_modify_of_eq {α β : Type} {f : α → α} {g : α → β} {xs : List α} {i : Nat}
    (h : ∀ x, xs[i]? = some x → g (f x) = g x) : (xs.modify i f).map g = xs.map g := by
  apply List.ext_getElem?
  intro j
  rw [List.getElem?_map, List.getElem?_map, List.getElem?_modify]
  cases hx : xs[j]? with
  | none => rfl
  | some x =>
    by_cases hij : i = j
    · subst hij
      simp [h x hx]
    · simp [hij]

theorem simplifyWith_replaceAt {place : List Nat} {e t new : Expr} (h : e.obstacle = none)
    (ht : e.part? place = some t) (hnew : simplifyWith A new = simplifyWith A t) :
    simplifyWith A (e.replaceAt place new) = simplifyWith A e := by
  induction place generalizing e with
  | nil =>
    cases ht
    exact hnew
  | cons i place ih =>
    obtain ⟨c, hc, ht⟩ := Option.bind_eq_some_iff.mp ht
    -- Only the part on the way to the place is another one, and it simplifies to the same.
    refine simplifyWith_withChildren A h (map_modify_of_eq fun x hx => ?_)
    obtain rfl : c = x := Option.some.inj (hc.symm.trans hx)
    exact ih (finished_of_mem_children h (List.mem_of_getElem? hc)) ht

end Replace

theorem WellFormed.obstacle_eq_none {e : Expr} (h : e.WellFormed) : e.obstacle = none := by
  induction e with
  | const | var => rfl
  | neg a iha | call f a iha => exact iha h
  | binary op a b iha ihb | powCall a b iha ihb =>
    exact orElse_eq_none_iff.mpr ⟨iha h.1, ihb h.2⟩
  | unknown n a rest iha ihrest =>
    refine orElse_eq_none_iff.mpr ⟨iha h.2.1, finished_iff_of_mem.mpr fun e he => ?_⟩
    exact ihrest e he (allWellFormed_iff.mp h.2.2 e he)
  | blank | pair | datum | oddVar => exact h.elim

/-- One pass reaches a normal form: a second pass changes nothing, no rule applies at any place, and
the outcome is the same whichever part was simplified before. -/
theorem simplify_reaches_normal_form {e : Expr} (h : e.WellFormed) :
    ∃ r, e.simplify = .ok r ∧ r.simplify = .ok r ∧
      (∀ place t, r.part? place = some t → t.isRedex = false) ∧
      ∀ place t, e.part? place = some t →
        ∃ t', t.simplify = .ok t' ∧ (e.replaceAt place t').simplify = .ok r := by
  have hfin := h.obstacle_eq_none
  have hr := normal_simplifyWith .double hfin
  refine ⟨_, simplify_of_obstacle_eq_none hfin, ?_, hr, fun place t ht => ?_⟩
  · rw [simplify_of_obstacle_eq_none (finished_simplifyWith hfin), simplifyWith_of_normal _ hr]
  · have ht' := finished_part? hfin ht
    refine ⟨_, simplify_of_obstacle_eq_none ht', ?_⟩
    rw [simplify_of_obstacle_eq_none (finished_replaceAt hfin (finished_simplifyWith ht')),
      simplifyWith_replaceAt _ hfin ht (simplifyWith_idem _ ht')]

/-- A sum with zero and a logarithm of an exponential, of which the sum was simplified before. -/
theorem simplify_reaches_normal_form_log_exp :
    let e := mul (add zero (var "x")) (call .log (call .exp (var "y")))
    e.WellFormed ∧ e.part? [0] = some (add zero (var "x")) ∧
      ∃ r, e.simplify = .ok r ∧ r.simplify = .ok r ∧
        (∀ place t, r.part? place = some t → t.isRedex = false) ∧
        (e.replaceAt [0] (var "x")).simplify = .ok r := by
  intro e
  have hwf : e.WellFormed := ⟨⟨trivial, trivial⟩, trivial⟩
  have hpart : e.part? [0] = some (add zero (var "x")) := rfl
  obtain ⟨r, hr, hfix, hnormal, hplaces⟩ := simplify_reaches_normal_form hwf
  obtain ⟨t, ht, hreplace⟩ := hplaces [0] _ hpart
  obtain rfl : var "x" = t := Except.ok.inj ht
  exact ⟨hwf, hpart, r, hr, hfix, hnormal, hreplace⟩

end Nabla.Expr
