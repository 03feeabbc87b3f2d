import Nabla.Proofs.Alike
import Nabla.Proofs.ConstantFolding

/-!
# Transformations of equal trees

Equality of trees does not see the sign of a zero, and division and powers do. Still trees that are
alike stay alike under differentiation and simplification and have the same text: a constant is folded
by division or by a power only after the operands have been found not to be zero.
-/

namespace Nabla

open Double

/-- Operations that take the same numbers to the same numbers. Nothing is asked of a quotient with the
divisor zero and of a power with base or exponent zero. -/
structure Arithmetic.Congruent (A : Arithmetic Float) : Prop where
  neg : ∀ {x x'}, SameNumber x x' → SameNumber (A.neg x) (A.neg x')
  call : ∀ f {x x'}, SameNumber x x' → SameNumber (A.call f x) (A.call f x')
  plain : ∀ {op}, op ∈ [BinOp.add, .sub, .mul] → ∀ {x x' y y'}, SameNumber x x' → SameNumber y y' →
    SameNumber (A.combine op x y) (A.combine op x' y')
  div : ∀ {x x' y y'}, SameNumber x x' → SameNumber y y' → (y == 0) = false →
    SameNumber (A.combine .div x y) (A.combine .div x' y')
  pow : ∀ {x x' y y'}, SameNumber x x' → SameNumber y y' → (x == 0) = false → (y == 0) = false →
    SameNumber (A.combine .pow x y) (A.combine .pow x' y')

theorem Arithmetic.Usual.congruent {A : Arithmetic Float} (hA : A.Usual) : A.Congruent where
  neg h := by
    rw [hA.neg, hA.neg]
    exact h.neg
  call f x x' h := by
    rcases h.eq_or_zeros with rfl | ⟨hx, hx'⟩
    · exact sameNumber_refl _
    · exact hA.call_zero f x x' hx hx'
  plain hop _ _ _ _ hx hy := by
    simp only [List.mem_cons, List.not_mem_nil, or_false] at hop
    rcases hop with rfl | rfl | rfl
    · rw [hA.combine .add nofun]
      exact hx.add hy
    · rw [hA.combine .sub nofun]
      exact hx.sub hy
    · rw [hA.combine .mul nofun]
      exact hx.mul hy
  div hx hy hy0 := by
    rw [hA.combine .div nofun, ← hy.eq hy0]
    exact hx.div_left _
  pow hx hy hx0 hy0 := by
    rw [← hx.eq hx0, ← hy.eq hy0]
    exact sameNumber_refl _

namespace Expr

variable {a a' b b' e e' : Expr}

/-! ## Questions about constants -/

theorem Alike.isZero_eq (h : Alike a a') : a.isZero = a'.isZero := by
  cases h using Alike.induction with
  | const x x' h => exact h.beq_congr (sameNumber_refl 0)
  | _ => rfl

theorem Alike.isOne_eq (h : Alike a a') : a.isOne = a'.isOne := by
  cases h using Alike.induction with
  | const x x' h => exact h.beq_congr (sameNumber_refl 1)
  | _ => rfl

theorem Alike.const_or (h : Alike a a') :
    (∃ x x', a = const x ∧ a' = const x' ∧ SameNumber x x') ∨
      a.isConst = false ∧ a'.isConst = false := by
  cases h using Alike.induction with
  | const x x' h => exact .inl ⟨x, x', rfl, rfl, h⟩
  | _ => exact .inr ⟨rfl, rfl⟩

theorem sameAll_congr {es es' fs fs' : List Expr}
    (h : List.Forall₂ (fun e e' => ∀ f f', Alike f f' → same e f = same e' f') es es')
    (hfs : List.Forall₂ Alike fs fs') : sameAll es fs = sameAll es' fs' := by
  induction h generalizing fs fs' with
  | nil => cases hfs <;> rfl
  | cons h _ ih =>
    cases hfs with
    | nil => rfl
    | cons hf hfs => rw [sameAll, sameAll, h _ _ hf, ih hfs]

theorem Alike.same_eq (ha : Alike a a') (hb : Alike b b') : same a b = same a' b' := by
  induction ha generalizing b b' with
  | const x x' hx =>
    cases hb using Alike.induction with
    | const y y' hy => exact hx.beq_congr hy
    | _ => rfl
  | var x =>
    cases hb using Alike.induction with
    | _ => rfl
  | neg a a' _ iha =>
    cases hb using Alike.induction with
    | neg b b' hb => exact iha hb
    | _ => rfl
  | binary op a₁ a₂ a₁' a₂' _ _ ih₁ ih₂ =>
    cases hb using Alike.induction with
    | binary op' b₁ b₂ b₁' b₂' hb₁ hb₂ => rw [same, same, ih₁ hb₁, ih₂ hb₂]
    | _ => rfl
  | call f a a' _ iha =>
    cases hb using Alike.induction with
    | call f' b b' hb => rw [same, same, iha hb]
    | _ => rfl
  | powCall a₁ a₂ a₁' a₂' _ _ ih₁ ih₂ =>
    cases hb using Alike.induction with
    | powCall b₁ b₂ b₁' b₂' hb₁ hb₂ => rw [same, same, ih₁ hb₁, ih₂ hb₂]
    | _ => rfl
  | unknown n a rest a' rest' _ _ iha ihrest =>
    cases hb using Alike.induction with
    | unknown n' b others b' others' hb hothers =>
      have hrest : List.Forall₂ (fun e e' => ∀ f f', Alike f f' → same e f = same e' f') rest rest' :=
        ihrest.imp fun _ _ ⟨_, h⟩ _ _ hf => h hf
      rw [same, same, iha hb, sameAll_congr hrest (allAlike_iff.mp hothers)]
    | _ => rfl

/-! ## Differentiation -/

theorem Alike.outer (h : Alike a a') (f : Fn) : Alike (outer f a) (outer f a') := by
  cases f <;> simp [Expr.outer, add, sub, mul, div, power, one, two, Alike, h, sameNumber_refl]

theorem Alike.powerRule {f g f₁ g₁ f' g' f₁' g₁' : Expr} (hf : Alike f f') (hg : Alike g g')
    (hf₁ : Alike f₁ f₁') (hg₁ : Alike g₁ g₁') :
    Alike (powerRule f g f₁ g₁) (powerRule f' g' f₁' g₁') := by
  simp [Expr.powerRule, add, mul, div, power, Alike, hf, hg, hf₁, hg₁]

theorem Alike.deriv (h : Alike e e') (x : String) : Alike (deriv x e) (deriv x e') := by
  induction h with
  | const y y' _ => exact sameNumber_refl 0
  | var y =>
    unfold Expr.deriv
    split_ifs <;> exact sameNumber_refl _
  | neg a a' _ iha => exact iha
  | binary op a b a' b' ha hb iha ihb =>
    cases op with
    | add | sub | mul | div =>
      simp [Expr.deriv, add, sub, mul, div, power, two, Alike, ha, hb, iha, ihb, sameNumber_refl]
    | pow => exact ha.powerRule hb iha ihb
  | call f a a' ha iha => exact ⟨rfl, ha.outer f, iha⟩
  | powCall a b a' b' ha hb iha ihb => exact ha.powerRule hb iha ihb
  | unknown n a rest a' rest' _ _ iha _ => exact iha

/-! ## Simplification -/

section Rules

variable {A : Arithmetic Float} {op : BinOp}

theorem simplifyAdd_eq (a b : Expr) :
    simplifyAdd A a b = foldOr A .add
      (fun a b => if isZero a then b else if isZero b then a else add a b) a b := by
  cases a <;> cases b <;> rfl

theorem simplifySub_eq (a b : Expr) :
    simplifySub A a b = foldOr A .sub
      (fun a b => if isZero a then neg b else if isZero b then a else sub a b) a b := by
  cases a <;> cases b <;> rfl

theorem simplifyMul_eq (a b : Expr) :
    simplifyMul A a b = foldOr A .mul
      (fun a b => if isZero a then zero else if isZero b then zero else if isOne a then b
        else if isOne b then a else mul a b) a b := by
  cases a <;> cases b <;> rfl

theorem simplifyCall_call (f g : Fn) (u : Expr) :
    simplifyCall A f (call g u) = if cancels f (call g u) then u else call f (call g u) := by
  cases f <;> cases g <;> rfl

theorem foldOr_symbolic {rebuild : Expr → Expr → Expr} (h : a.isConst = false ∨ b.isConst = false) :
    foldOr A op rebuild a b = rebuild a b := by
  rcases foldOr_cases A op rebuild a b with ⟨hc, -⟩ | ⟨-, heq⟩
  · rcases h with h | h <;> simp [h] at hc
  · exact heq

theorem alike_foldOr {rebuild : Expr → Expr → Expr} (ha : Alike a a') (hb : Alike b b')
    (hfold : ∀ {x x' y y'}, a = const x → b = const y → SameNumber x x' → SameNumber y y' →
      SameNumber (A.combine op x y) (A.combine op x' y'))
    (hrebuild : Alike (rebuild a b) (rebuild a' b')) :
    Alike (foldOr A op rebuild a b) (foldOr A op rebuild a' b') := by
  rcases ha.const_or with ⟨x, x', rfl, rfl, hx⟩ | ⟨hca, hca'⟩
  · rcases hb.const_or with ⟨y, y', rfl, rfl, hy⟩ | ⟨hcb, hcb'⟩
    · exact hfold rfl rfl hx hy
    · rw [foldOr_symbolic (.inr hcb), foldOr_symbolic (.inr hcb')]
      exact hrebuild
  · rw [foldOr_symbolic (.inl hca), foldOr_symbolic (.inl hca')]
    exact hrebuild

theorem alike_simplifyNeg (hA : A.Congruent) (ha : Alike a a') :
    Alike (simplifyNeg A a) (simplifyNeg A a') := by
  have h := ha
  cases ha using Alike.induction with
  | const x x' hx => exact hA.neg hx
  | _ => exact h

theorem alike_simplifyCall (hA : A.Congruent) (f : Fn) (ha : Alike a a') :
    Alike (simplifyCall A f a) (simplifyCall A f a') := by
  have h := ha
  cases ha using Alike.induction with
  | const x x' hx => exact hA.call f hx
  | call g u u' hu =>
    have hc : cancels f (call g u) = cancels f (call g u') := by cases f <;> cases g <;> rfl
    rw [simplifyCall_call, simplifyCall_call, hc]
    split_ifs
    · exact hu
    · exact ⟨rfl, h⟩
  | _ => cases f <;> exact ⟨rfl, h⟩

theorem alike_simplifyDiv (hA : A.Congruent) (ha : Alike a a') (hb : Alike b b') :
    Alike (simplifyDiv A a b) (simplifyDiv A a' b') := by
  have hab : (a == b) = (a' == b') := ha.same_eq hb
  unfold simplifyDiv
  rw [← ha.isZero_eq, ← hb.isZero_eq, ← hb.isOne_eq, ← hab]
  split_ifs with hb0
  · exact ⟨rfl, ha, hb⟩
  · exact sameNumber_refl 1
  · exact sameNumber_refl 0
  · exact ha
  · refine alike_foldOr ha hb ?_ ⟨rfl, ha, hb⟩
    rintro x x' y y' rfl rfl hx hy
    exact hA.div hx hy (Bool.eq_false_iff.mpr hb0)

theorem alike_simplifyPow (hA : A.Congruent) {rebuild : Expr → Expr → Expr} (ha : Alike a a')
    (hb : Alike b b') (hrebuild : Alike (rebuild a b) (rebuild a' b')) :
    Alike (simplifyPow A rebuild a b) (simplifyPow A rebuild a' b') := by
  unfold simplifyPow
  rw [← ha.isZero_eq, ← hb.isZero_eq, ← ha.isOne_eq, ← hb.isOne_eq]
  split_ifs with ha0 hb0 hone
  · exact hrebuild
  · exact sameNumber_refl 0
  · exact sameNumber_refl 1
  · exact ha
  · refine alike_foldOr ha hb ?_ hrebuild
    rintro x x' y y' rfl rfl hx hy
    rw [Bool.or_eq_true, not_or] at hone
    exact hA.pow hx hy (Bool.eq_false_iff.mpr ha0) (Bool.eq_false_iff.mpr hone.2)

theorem alike_simplifyBinary (hA : A.Congruent) (op : BinOp) (ha : Alike a a') (hb : Alike b b') :
    Alike (simplifyBinary A op a b) (simplifyBinary A op a' b') := by
  cases op with
  | add =>
    simp only [simplifyBinary, simplifyAdd_eq]
    apply alike_foldOr ha hb fun _ _ => hA.plain (by simp)
    rw [ha.isZero_eq, hb.isZero_eq]
    split_ifs
    exacts [hb, ha, ⟨rfl, ha, hb⟩]
  | sub =>
    simp only [simplifyBinary, simplifySub_eq]
    apply alike_foldOr ha hb fun _ _ => hA.plain (by simp)
    rw [ha.isZero_eq, hb.isZero_eq]
    split_ifs
    exacts [hb, ha, ⟨rfl, ha, hb⟩]
  | mul =>
    simp only [simplifyBinary, simplifyMul_eq]
    apply alike_foldOr ha hb fun _ _ => hA.plain (by simp)
    rw [ha.isZero_eq, hb.isZero_eq, ha.isOne_eq, hb.isOne_eq]
    split_ifs
    exacts [sameNumber_refl 0, sameNumber_refl 0, hb, ha, ⟨rfl, ha, hb⟩]
  | div => exact alike_simplifyDiv hA ha hb
  | pow => exact alike_simplifyPow hA ha hb ⟨rfl, ha, hb⟩

end Rules

theorem Alike.simplifyWith {A : Arithmetic Float} (hA : A.Congruent) (h : Alike e e') :
    Alike (simplifyWith A e) (simplifyWith A e') := by
  induction h with
  | const x x' h => exact h
  | var x => rfl
  | neg a a' _ iha => exact alike_simplifyNeg hA iha
  | binary op a b a' b' _ _ iha ihb => exact alike_simplifyBinary hA op iha ihb
  | call f a a' _ iha => exact alike_simplifyCall hA f iha
  | powCall a b a' b' _ _ iha ihb => exact alike_simplifyPow hA iha ihb ⟨iha, ihb⟩
  | unknown n a rest a' rest' _ _ iha ihrest =>
    refine ⟨rfl, iha, allAlike_iff.mpr ?_⟩
    rw [simplifyAllWith_eq_map, simplifyAllWith_eq_map, List.forall₂_map_left_iff,
      List.forall₂_map_right_iff]
    exact ihrest.imp fun _ _ ⟨_, h⟩ => h

/-! ## Text -/

theorem constText_of_zero {x : Float} (h : (x == 0) = true) : constText x = "0" := by
  obtain ⟨s, hs⟩ := beq_zero_iff.mp h
  cases s with
  | positive =>
    obtain rfl : x = 0 := eq_of_unpack_eq hs
    decide +kernel
  | negative =>
    obtain rfl : x = -0 := eq_of_unpack_eq hs
    decide +kernel

theorem constText_congr {x x' : Float} (h : SameNumber x x') : constText x = constText x' := by
  rcases h.eq_or_zeros with rfl | ⟨hx, hx'⟩
  · rfl
  · rw [constText_of_zero hx, constText_of_zero hx']

theorem textAll_congr {es es' : List Expr} (h : List.Forall₂ (fun e e' => e.text = e'.text) es es') :
    textAll es = textAll es' := by
  induction h with
  | nil => rfl
  | cons h _ ih => rw [textAll, textAll, h, ih]

theorem Alike.text_eq (h : Alike e e') : e.text = e'.text := by
  induction h with
  | const x x' h => exact constText_congr h
  | var x => rfl
  | neg a a' _ iha | call f a a' _ iha => rw [text, text, iha]
  | binary op a b a' b' _ _ iha ihb | powCall a b a' b' _ _ iha ihb => rw [text, text, iha, ihb]
  | unknown n a rest a' rest' _ _ iha ihrest =>
    rw [text, text, iha, textAll_congr (ihrest.imp fun _ _ ⟨_, h⟩ => h)]

theorem Alike.finished (h : Alike e e') : e.obstacle = none ∧ e'.obstacle = none := by
  induction h with
  | const | var => exact ⟨rfl, rfl⟩
  | neg a a' _ iha | call f a a' _ iha => exact iha
  | binary op a b a' b' _ _ iha ihb | powCall a b a' b' _ _ iha ihb =>
    simp [obstacle, iha, ihb]
  | unknown n a rest a' rest' _ _ iha ihrest =>
    refine ⟨orElse_eq_none_iff.mpr ⟨iha.1, finished_iff_of_mem.mpr fun e he => ?_⟩,
      orElse_eq_none_iff.mpr ⟨iha.2, finished_iff_of_mem.mpr fun e he => ?_⟩⟩
    · obtain ⟨e', -, -, h⟩ := exists_right_of_mem ihrest he
      exact h.1
    · obtain ⟨e', -, -, h⟩ := exists_left_of_mem ihrest he
      exact h.2

/-- Trees that are alike have derivatives and simplified trees that are alike, and the same text,
provided that the operations take the same numbers to the same numbers where they are used. Nothing
fails. -/
theorem transformations_respect_equality {A : Arithmetic Float} (hA : A.Congruent)
    (h : Alike e e') :
    (∀ x, ∃ d d', e.differentiate x = .ok d ∧ e'.differentiate x = .ok d' ∧ Alike d d') ∧
    Alike (simplifyWith A e) (simplifyWith A e') ∧
    (e.simplify = .ok (simplifyWith .double e) ∧ e'.simplify = .ok (simplifyWith .double e')) ∧
    e.text = e'.text := by
  obtain ⟨hfin, hfin'⟩ := h.finished
  refine ⟨fun x => ?_, h.simplifyWith hA, ⟨?_, ?_⟩, h.text_eq⟩
  · exact ⟨_, _, differentiate_of_finished hfin x, differentiate_of_finished hfin' x, h.deriv x⟩
  · exact simplify_of_obstacle_eq_none hfin
  · exact simplify_of_obstacle_eq_none hfin'

/-- Zeros of both signs as a divisor, a factor and an exponent, and two undefined constants whose
quotient is not one. -/
theorem transformations_respect_equality_zeros :
    let tree (zero : Float) := add (div one (const zero)) (mul (power (var "x") (const zero))
      (div (const (0 / 0)) (const (0 / 0))))
    Alike (tree 0) (tree (-0)) ∧ (0 : Float).toBits ≠ (-0 : Float).toBits ∧
      (∀ x, ∃ d d', (tree 0).differentiate x = .ok d ∧ (tree (-0)).differentiate x = .ok d' ∧
        Alike d d') ∧
      Alike (simplifyWith .spelledOut (tree 0)) (simplifyWith .spelledOut (tree (-0))) ∧
      (tree 0).text = (tree (-0)).text := by
  intro tree
  have h : Alike (tree 0) (tree (-0)) := by
    have hzero : SameNumber 0 (-0) := .inl (by decide +kernel)
    simp [tree, add, mul, div, power, one, Alike, hzero, sameNumber_refl]
  obtain ⟨hderiv, hsimp, -, htext⟩ :=
    transformations_respect_equality Arithmetic.usual_spelledOut.congruent h
  exact ⟨h, by decide +kernel, hderiv, hsimp, htext⟩

end Expr

end Nabla
