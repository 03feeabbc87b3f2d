import Nabla.Proofs.Double.Zeros
import Nabla.Proofs.Numbers
import Nabla.Proofs.Sequence
import Nabla.Proofs.Vocabulary

/-!
# Folded constants and evaluation

Where a tree simplifies to a constant, the constant is the value of the tree, up to the sign of zero.
Foldings compute what evaluation computes. The shortcuts that drop an operand do not look at its value:
a product with zero, a quotient of equal trees, a quotient of zero and a power of zero are only right
if the values of the operands are such as the shortcut takes for granted.
-/

namespace Nabla

open Double

/-- Doubles with the arithmetic of doubles, in which powers and functions are as usual at zero and
one. -/
structure Arithmetic.Usual (A : Arithmetic Float) : Prop where
  neg : ∀ x, A.neg x = -x
  combine : ∀ op, op ≠ .pow → A.combine op = Arithmetic.double.combine op
  pow_zero : ∀ x y, (y == 0) = true → SameNumber 1 (A.combine .pow x y)
  one_pow : ∀ x y, (x == 1) = true → SameNumber 1 (A.combine .pow x y)
  pow_one : ∀ x y, (y == 1) = true → SameNumber x (A.combine .pow x y)
  zero_pow : ∀ x y, (x == 0) = true → 0 < y → SameNumber 0 (A.combine .pow x y)
  call_zero : ∀ f x y, (x == 0) = true → (y == 0) = true → SameNumber (A.call f x) (A.call f y)

namespace Expr

/-! ## When a shortcut is right -/

/-- What an operator takes for granted about the values `v` and `w` of its operands, if these have
simplified to `a` and `b`. -/
def Justified (a b : Expr) (v w : Float) : BinOp → Prop
  | .add | .sub => True
  | .mul => (isZero a = true → isConst b = false → w.isFinite = true) ∧
    (isZero b = true → isConst a = false → v.isFinite = true)
  | .div => isZero b = false → if a == b
    then SameNumber v w ∧ v.isFinite = true ∧ (v == 0) = false
    else isZero a = true → w.isNaN = false ∧ (w == 0) = false
  | .pow => isZero a = true → isZero b = false → 0 < w

/-- All operators in the tree are justified by the values of their operands. -/
def AllJustified (A : Arithmetic Float) (ρ : String → Option Float) : Expr → Prop
  | neg a | call _ a => AllJustified A ρ a
  | binary op a b => AllJustified A ρ a ∧ AllJustified A ρ b ∧
    ∀ v w, a.evalWith (.scalar A id) ρ = .ok v → b.evalWith (.scalar A id) ρ = .ok w →
      Justified (simplifyWith A a) (simplifyWith A b) v w op
  | powCall a b => AllJustified A ρ a ∧ AllJustified A ρ b ∧
    ∀ v w, a.evalWith (.scalar A id) ρ = .ok v → b.evalWith (.scalar A id) ρ = .ok w →
      Justified (simplifyWith A a) (simplifyWith A b) v w .pow
  | const _ | var _ | unknown _ _ _ | blank | pair _ _ | datum _ | oddVar _ => True

/-! ## The rules -/

/-- If the tree is a constant, it is the number `v`. -/
def Agrees (e : Expr) (v : Float) : Prop := ∀ c, e = const c → SameNumber c v

theorem agrees_const {c v : Float} (h : SameNumber c v) : (const c).Agrees v := by
  rintro _ ⟨rfl⟩
  exact h

theorem Agrees.of_const {c v : Float} (h : (const c).Agrees v) : SameNumber c v := h c rfl

theorem agrees_of_not_const {e : Expr} (h : e.isConst = false) (v : Float) : e.Agrees v := by
  rintro c rfl
  cases h

theorem Agrees.beq_zero {a : Expr} {v : Float} (h : a.Agrees v) (hz : isZero a = true) :
    (v == 0) = true := by
  cases a with
  | const x => exact h.of_const.beq_zero hz
  | _ => cases hz

theorem Agrees.beq_one {a : Expr} {v : Float} (h : a.Agrees v) (ho : isOne a = true) :
    (v == 1) = true := by
  cases a with
  | const x =>
    have hx : (x == 1) = true := ho
    rcases h.of_const.eq_or_zeros with rfl | ⟨h0, -⟩
    · exact hx
    · have hvoid : Void x := .inl h0
      rw [hvoid.not_beq_one] at hx
      cases hx
  | _ => cases ho

section Rules

variable {A : Arithmetic Float} {a b : Expr} {v w : Float}

theorem agrees_neg (hA : A.Usual) (ha : a.Agrees v) : (simplifyNeg A a).Agrees (A.neg v) := by
  unfold simplifyNeg
  split
  · rw [hA.neg, hA.neg]
    exact agrees_const ha.of_const.neg
  · exact agrees_of_not_const rfl _

theorem agrees_call (hA : A.Usual) (f : Fn) (hn : a.Normal) (ha : a.Agrees v) :
    (simplifyCall A f a).Agrees (A.call f v) := by
  unfold simplifyCall
  split
  · rcases ha.of_const.eq_or_zeros with rfl | ⟨hx, hv⟩
    · exact agrees_const (sameNumber_refl _)
    · exact agrees_const (hA.call_zero _ _ _ hx hv)
  -- what is uncovered is no constant, or the inner call would have been folded
  · exact agrees_of_not_const (Bool.or_eq_false_iff.mp (normal_iff.mp hn).1).1 _
  · exact agrees_of_not_const (Bool.or_eq_false_iff.mp (normal_iff.mp hn).1).1 _
  · exact agrees_of_not_const rfl _

theorem agrees_add (hA : A.Usual) (ha : a.Agrees v) (hb : b.Agrees w) :
    (simplifyAdd A a b).Agrees (A.combine .add v w) := by
  unfold simplifyAdd
  rw [hA.combine .add nofun]
  split
  · exact agrees_const (ha.of_const.add hb.of_const)
  · rename_i hne
    split_ifs
    · exact agrees_of_not_const (isConst_eq_false hne) _
    · exact agrees_of_not_const rfl _
  · rename_i hne
    split_ifs
    · exact agrees_of_not_const (isConst_eq_false fun x => hne x) _
    · exact agrees_of_not_const rfl _
  · exact agrees_of_not_const rfl _

theorem agrees_sub (hA : A.Usual) (ha : a.Agrees v) (hb : b.Agrees w) :
    (simplifySub A a b).Agrees (A.combine .sub v w) := by
  unfold simplifySub
  rw [hA.combine .sub nofun]
  split
  · exact agrees_const (ha.of_const.sub hb.of_const)
  · split_ifs <;> exact agrees_of_not_const rfl _
  · rename_i hne
    split_ifs
    · exact agrees_of_not_const (isConst_eq_false hne) _
    · exact agrees_of_not_const rfl _
  · exact agrees_of_not_const rfl _

theorem agrees_mul (hA : A.Usual) (ha : a.Agrees v) (hb : b.Agrees w)
    (h : Justified a b v w .mul) : (simplifyMul A a b).Agrees (A.combine .mul v w) := by
  unfold simplifyMul
  rw [hA.combine .mul nofun]
  split
  · exact agrees_const (ha.of_const.mul hb.of_const)
  · rename_i hne
    have hb := isConst_eq_false hne
    split_ifs with h0
    · have hzero := zero_mul_of_finite (ha.beq_zero h0) (h.1 h0 hb)
      exact agrees_const (sameNumber_of_zeros (by decide +kernel) hzero)
    · exact agrees_of_not_const hb _
    · exact agrees_of_not_const rfl _
  · rename_i hne
    have ha := isConst_eq_false hne
    split_ifs with h0
    · have hzero := mul_zero_of_finite (h.2 h0 ha) (hb.beq_zero h0)
      exact agrees_const (sameNumber_of_zeros (by decide +kernel) hzero)
    · exact agrees_of_not_const ha _
    · exact agrees_of_not_const rfl _
  · exact agrees_of_not_const rfl _

theorem agrees_div (hA : A.Usual) (ha : a.Agrees v) (hb : b.Agrees w)
    (h : Justified a b v w .div) : (simplifyDiv A a b).Agrees (A.combine .div v w) := by
  unfold simplifyDiv
  split_ifs with hb0 hab ha0 hb1
  · exact agrees_of_not_const rfl _
  · have hdiv := h (Bool.eq_false_iff.mpr hb0)
    rw [if_pos hab] at hdiv
    obtain ⟨hvw, hfinite, hv0⟩ := hdiv
    rw [hA.combine .div nofun, ← hvw.eq hv0]
    refine agrees_const ?_
    show SameNumber 1 (v / v)
    rw [div_self_of_finite hfinite hv0]
    exact sameNumber_refl 1
  · have hdiv := h (Bool.eq_false_iff.mpr hb0)
    rw [if_neg hab] at hdiv
    obtain ⟨hnan, hw0⟩ := hdiv ha0
    rw [hA.combine .div nofun]
    have hzero := zero_div_of_number (ha.beq_zero ha0) hnan hw0
    exact agrees_const (sameNumber_of_zeros (by decide +kernel) hzero)
  · have hw : w = 1 := eq_of_beq (hb.beq_one hb1) (not_beq_zero_of_beq_one (hb.beq_one hb1))
    rw [hA.combine .div nofun, hw]
    show a.Agrees (v / 1)
    rw [div_one]
    exact ha
  · unfold foldOr
    split
    · rename_i x y
      have hy : y = w := hb.of_const.eq (Bool.eq_false_iff.mpr hb0)
      rw [hA.combine .div nofun, hy]
      exact agrees_const (ha.of_const.div_left w)
    · exact agrees_of_not_const rfl _

theorem agrees_pow (hA : A.Usual) {rebuild : Expr → Expr → Expr}
    (hrebuild : (rebuild a b).isConst = false) (ha : a.Agrees v) (hb : b.Agrees w)
    (h : Justified a b v w .pow) : (simplifyPow A rebuild a b).Agrees (A.combine .pow v w) := by
  unfold simplifyPow
  split_ifs with ha0 hb0 hone hb1
  · exact agrees_of_not_const hrebuild _
  · exact agrees_const (hA.zero_pow v w (ha.beq_zero ha0) (h ha0 (Bool.eq_false_iff.mpr hb0)))
  · rcases Bool.or_eq_true_iff.mp hone with ha1 | hb0
    · exact agrees_const (hA.one_pow v w (ha.beq_one ha1))
    · exact agrees_const (hA.pow_zero v w (hb.beq_zero hb0))
  · intro c hc
    exact (ha c hc).trans (hA.pow_one v w (hb.beq_one hb1))
  · unfold foldOr
    split
    · rename_i x y
      have hx : x = v := ha.of_const.eq (Bool.eq_false_iff.mpr ha0)
      have hy : y = w := hb.of_const.eq (Bool.eq_false_iff.mpr fun hb0 => hone (by simp [isZero, hb0]))
      rw [hx, hy]
      exact agrees_const (sameNumber_refl _)
    · exact agrees_of_not_const hrebuild _

theorem agrees_binary (hA : A.Usual) {op : BinOp} (ha : a.Agrees v) (hb : b.Agrees w)
    (h : Justified a b v w op) : (simplifyBinary A op a b).Agrees (A.combine op v w) := by
  cases op with
  | add => exact agrees_add hA ha hb
  | sub => exact agrees_sub hA ha hb
  | mul => exact agrees_mul hA ha hb h
  | div => exact agrees_div hA ha hb h
  | pow => exact agrees_pow hA rfl ha hb h

end Rules

/-! ## Trees -/

theorem agrees_simplifyWith {A : Arithmetic Float} (hA : A.Usual) {ρ : String → Option Float}
    {e : Expr} (hfin : e.obstacle = none) (he : e.AllJustified A ρ) {v : Float}
    (hv : e.evalWith (.scalar A id) ρ = .ok v) : (simplifyWith A e).Agrees v := by
  induction e generalizing v with
  | const c =>
    obtain rfl : c = v := Except.ok.inj hv
    exact agrees_const (sameNumber_refl c)
  | var x => exact agrees_of_not_const rfl v
  | neg a iha =>
    obtain ⟨x, hx, hv⟩ := bind_eq_ok_iff.mp hv
    cases hv
    exact agrees_neg hA (iha hfin he hx)
  | call f a iha =>
    obtain ⟨x, hx, hv⟩ := bind_eq_ok_iff.mp hv
    cases hv
    exact agrees_call hA f (normal_simplifyWith A (e := a) hfin) (iha hfin he hx)
  | binary op a b iha ihb =>
    obtain ⟨hfa, hfb⟩ := orElse_eq_none_iff.mp hfin
    obtain ⟨hja, hjb, hj⟩ := he
    obtain ⟨x, hx, hv⟩ := bind_eq_ok_iff.mp hv
    obtain ⟨y, hy, hv⟩ := bind_eq_ok_iff.mp hv
    cases hv
    exact agrees_binary hA (iha hfa hja hx) (ihb hfb hjb hy) (hj x y hx hy)
  | powCall a b iha ihb =>
    obtain ⟨hfa, hfb⟩ := orElse_eq_none_iff.mp hfin
    obtain ⟨hja, hjb, hj⟩ := he
    obtain ⟨x, hx, hv⟩ := bind_eq_ok_iff.mp hv
    obtain ⟨y, hy, hv⟩ := bind_eq_ok_iff.mp hv
    cases hv
    exact agrees_pow hA rfl (iha hfa hja hx) (ihb hfb hjb hy) (hj x y hx hy)
  | unknown n a rest => cases hv
  | blank | pair | datum | oddVar => exact nomatch hfin

theorem over_bound_of_closed {e : Expr} (he : e.Over .known) (hvars : e.variableNames = [])
    (ρ : String → Option Float) : e.Over (.bound ρ) := by
  intro place t ht
  have hfits := he place t ht
  cases t with
  | var x =>
    have hx := mem_variableNames_iff.mpr ⟨place, ht⟩
    rw [hvars] at hx
    cases hx
  | unknown n a rest => exact hfits.elim
  | blank | pair | datum | oddVar => exact hfits
  | const | neg | binary | call | powCall => trivial

/-- A tree without variables and unknown functions has a value, and if it simplifies to a constant the
constant is that value, up to the sign of zero, as long as no shortcut of simplification takes
something for granted that is not so. -/
theorem folded_constant_is_value {A : Arithmetic Float} (hA : A.Usual) {e : Expr}
    (he : e.Over .known) (hvars : e.variableNames = [])
    (hjust : e.AllJustified A fun _ => none) :
    ∃ v, e.evalWith (NdArray.interp A id) (Table.find? []) = .ok (.scalar v) ∧
      ∀ c, simplifyWith A e = const c → SameNumber c v := by
  obtain ⟨v, hv⟩ := evaluates_iff.mpr (over_bound_of_closed he hvars fun _ => none)
  refine ⟨v, ?_, agrees_simplifyWith hA (he.finished fun _ => id) hjust hv⟩
  have heval := evalWith_scalars A (fun _ => none) e
  rw [hv] at heval
  exact heval

/-- The tree has a value, and simplifies to a constant that is another number. -/
def Misfolds (e : Expr) : Prop :=
  e.Over .known ∧ e.variableNames = [] ∧
    ∃ c v, e.simplify = .ok (const c) ∧ e.eval [] = .ok (.scalar v) ∧ ¬ SameNumber c v

theorem misfolds_of {e : Expr} {c v : Float} (he : e.Over .known) (hvars : e.variableNames = [])
    (hc : e.simplify = .ok (const c)) (hv : e.eval [] = .ok (.scalar v)) (hbeq : (c == v) = false)
    (hnan : c.isNaN = false) : Misfolds e := by
  refine ⟨he, hvars, c, v, hc, hv, ?_⟩
  rintro (h | ⟨h, -⟩)
  · exact absurd h (Bool.eq_false_iff.mp hbeq)
  · exact absurd h (Bool.eq_false_iff.mp hnan)

/-- Zero times infinity, infinity by infinity, zero by something undefined, and the reciprocal of zero
as a power. -/
theorem shortcuts_misfold :
    Misfolds (mul zero (div one zero)) ∧ Misfolds (div (div one zero) (div one zero)) ∧
      Misfolds (div zero (div zero zero)) ∧ Misfolds (power zero (const (-1))) := by
  refine ⟨?_, ?_, ?_, ?_⟩
  · exact misfolds_of (c := 0) (v := 0 * (1 / 0)) (by simp [mul, div, zero, one]) rfl rfl rfl
      (by decide +kernel) (by decide +kernel)
  · exact misfolds_of (c := 1) (v := 1 / 0 / (1 / 0)) (by simp [div, zero, one]) rfl rfl rfl
      (by decide +kernel) (by decide +kernel)
  · exact misfolds_of (c := 0) (v := 0 / (0 / 0)) (by simp [div, zero]) rfl rfl rfl
      (by decide +kernel) (by decide +kernel)
  · exact misfolds_of (c := 0) (v := powKnown 0 (-1)) (by simp [power, zero]) rfl rfl
      (combine_numbers .double .pow 0 (-1)) (by decide +kernel) (by decide +kernel)

end Expr

/-- The arithmetic of doubles in which powers and functions at zero and one are written out. -/
def Arithmetic.spelledOut : Arithmetic Float where
  neg x := -x
  combine
    | .pow => fun x y =>
      if y == 0 || x == 1 then 1
      else if y == 1 then x
      else if x == 0 && 0 < y then 0
      else powKnown x y
    | op => Arithmetic.double.combine op
  call f x := Arithmetic.double.call f (if x == 0 then 0 else x)

theorem Arithmetic.usual_spelledOut : spelledOut.Usual where
  neg _ := rfl
  combine op hop := by cases op <;> first | rfl | exact (hop rfl).elim
  pow_zero x y hy := by
    show SameNumber 1 (if y == 0 || x == 1 then 1 else _)
    rw [hy]
    exact sameNumber_refl 1
  one_pow x y hx := by
    show SameNumber 1 (if y == 0 || x == 1 then 1 else _)
    rw [hx, Bool.or_true]
    exact sameNumber_refl 1
  pow_one x y hy := by
    show SameNumber x (if y == 0 || x == 1 then 1 else if y == 1 then x else _)
    simp only [not_beq_zero_of_beq_one hy, hy, Bool.false_or, if_true]
    split_ifs with hx
    · exact .inl hx
    · exact sameNumber_refl x
  zero_pow x y hx hy := by
    show SameNumber 0 (if y == 0 || x == 1 then 1 else if y == 1 then x else
      if x == 0 && 0 < y then 0 else _)
    have hvoid : Void x := .inl hx
    simp only [not_beq_zero_of_pos hy, hvoid.not_beq_one, hx, decide_eq_true hy, Bool.or_self,
      Bool.false_eq_true, if_false, Bool.and_self, if_true]
    split_ifs
    · exact sameNumber_of_zeros (by decide +kernel) hx
    · exact sameNumber_refl 0
  call_zero f x y hx hy := by
    show SameNumber (Arithmetic.double.call f (if x == 0 then 0 else x))
      (Arithmetic.double.call f (if y == 0 then 0 else y))
    rw [hx, hy]
    exact sameNumber_refl _

/-- A product with zero whose other factor has the value one, and a quotient of constants. -/
theorem Expr.folded_constant_is_value_product :
    let e := add (mul zero (power zero zero)) (div (const 6) (const 2))
    e.Over .known ∧ e.variableNames = [] ∧ e.AllJustified .spelledOut (fun _ => none) ∧
      simplifyWith .spelledOut e = const (0 + 6 / 2) ∧
      ∃ v, e.evalWith (NdArray.interp .spelledOut id) (Table.find? []) = .ok (.scalar v) ∧
        SameNumber (0 + 6 / 2) v := by
  intro e
  have he : e.Over .known := by simp [e, add, mul, div, power, zero]
  have hjust : e.AllJustified .spelledOut fun _ => none := by
    refine ⟨⟨trivial, ⟨trivial, trivial, ?_⟩, ?_⟩, ⟨trivial, trivial, ?_⟩, ?_⟩
    · intro v w _ _ _ hb
      exact absurd hb (by decide +kernel)
    · intro v w _ hw
      obtain rfl : (1 : Float) = w := Except.ok.inj hw
      exact ⟨fun _ _ => by decide +kernel, fun h => absurd h (by decide +kernel)⟩
    · rintro v w _ _ -
      rw [if_neg (by decide +kernel)]
      intro ha
      exact absurd ha (by decide +kernel)
    · intro v w _ _
      trivial
  have hsimp : simplifyWith .spelledOut e = const (0 + 6 / 2) := rfl
  obtain ⟨v, hv, hc⟩ := folded_constant_is_value Arithmetic.usual_spelledOut he rfl hjust
  exact ⟨he, rfl, hjust, hsimp, v, hv, hc _ hsimp⟩

end Nabla
