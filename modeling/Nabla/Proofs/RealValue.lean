import Mathlib.Analysis.SpecialFunctions.Pow.Real
import Mathlib.Analysis.SpecialFunctions.Trigonometric.Arctan
import Mathlib.Analysis.SpecialFunctions.Trigonometric.Inverse
import Nabla.Expr.Derivative
import Nabla.Expr.Eval
import Nabla.Proofs.Double.Real

/-!
# Expressions as partial functions of the reals

Evaluation in exact arithmetic. A constant that is no number, a division by zero, an argument outside
the domain of its function and a function of which only the name is known have no value, and neither
has anything that is computed from them.
-/

noncomputable section

namespace Nabla

/-! ## Functions and operators -/

namespace Fn

def toReal : Fn → ℝ → ℝ
  | log => Real.log
  | exp => Real.exp
  | abs => fun u => |u|
  | sqrt => Real.sqrt
  | sin => Real.sin
  | cos => Real.cos
  | tan => Real.tan
  | asin => Real.arcsin
  | acos => Real.arccos
  | atan => Real.arctan

/-- Where a function has a value. -/
def Domain : Fn → ℝ → Prop
  | log, u => 0 < u
  | sqrt, u => 0 ≤ u
  | tan, u => Real.cos u ≠ 0
  | asin, u | acos, u => -1 ≤ u ∧ u ≤ 1
  | exp, _ | abs, _ | sin, _ | cos, _ | atan, _ => True

open Classical in
def real? (f : Fn) (u : ℝ) : Option ℝ := if f.Domain u then some (f.toReal u) else none

theorem real?_of_domain {f : Fn} {u : ℝ} (h : f.Domain u) : f.real? u = some (f.toReal u) :=
  if_pos h

theorem real?_eq_some_iff {f : Fn} {u v : ℝ} :
    f.real? u = some v ↔ f.Domain u ∧ f.toReal u = v := by
  unfold real?
  split_ifs with h <;> simp [h]

end Fn

/-- Powers. A negative base has whole powers only, and zero only positive ones. -/
def realPow? (x y : ℝ) : Option ℝ :=
  if 0 < x then some (x ^ y)
  else if x = 0 then if 0 < y then some 0 else none
  else if (⌊y⌋ : ℝ) = y then some (x ^ ⌊y⌋) else none

theorem realPow?_of_pos {x : ℝ} (h : 0 < x) (y : ℝ) : realPow? x y = some (x ^ y) := if_pos h

theorem realPow?_zero_base (y : ℝ) : realPow? 0 y = if 0 < y then some 0 else none := by
  unfold realPow?
  rw [if_neg (lt_irrefl 0), if_pos rfl]

theorem realPow?_of_neg {x : ℝ} (h : x < 0) (n : ℤ) : realPow? x n = some (x ^ n) := by
  unfold realPow?
  rw [if_neg (not_lt.mpr h.le), if_neg h.ne, Int.floor_intCast, if_pos rfl]

theorem realPow?_two (x : ℝ) : realPow? x 2 = some (x ^ 2) := by
  rcases lt_trichotomy x 0 with h | rfl | h
  · have := realPow?_of_neg h 2
    simpa using this
  · rw [realPow?_zero_base, if_pos two_pos]
    simp
  · rw [realPow?_of_pos h, Real.rpow_two]

theorem realPow?_one_base (y : ℝ) : realPow? 1 y = some 1 := by
  rw [realPow?_of_pos one_pos, Real.one_rpow]

theorem realPow?_one (x : ℝ) : realPow? x 1 = some x := by
  rcases lt_trichotomy x 0 with h | rfl | h
  · have := realPow?_of_neg h 1
    simpa using this
  · rw [realPow?_zero_base, if_pos one_pos]
  · rw [realPow?_of_pos h, Real.rpow_one]

theorem realPow?_zero {x v : ℝ} (h : realPow? x 0 = some v) : v = 1 := by
  rcases lt_trichotomy x 0 with hx | rfl | hx
  · have h0 := realPow?_of_neg hx 0
    rw [Int.cast_zero, h] at h0
    simpa using h0
  · rw [realPow?_zero_base, if_neg (lt_irrefl 0)] at h
    cases h
  · rw [realPow?_of_pos hx, Real.rpow_zero] at h
    exact (Option.some.inj h).symm

theorem realPow?_eq_zero_of_base {y v : ℝ} (h : realPow? 0 y = some v) : v = 0 := by
  rw [realPow?_zero_base] at h
  split_ifs at h
  exact (Option.some.inj h).symm

def BinOp.real? : BinOp → ℝ → ℝ → Option ℝ
  | add, x, y => some (x + y)
  | sub, x, y => some (x - y)
  | mul, x, y => some (x * y)
  | div, x, y => if y = 0 then none else some (x / y)
  | pow, x, y => realPow? x y

/-! ## Expressions -/

/-- Evaluation in the reals, where a value may be missing. -/
def Interp.real : Interp (Option ℝ) where
  const := Nabla.real?
  neg := Option.map (-·)
  call f v := v.bind f.real?
  combine op x y := .ok (x.bind fun a => y.bind (op.real? a))

namespace Expr

/-- The value of an expression at a point, if it has one. -/
def value (ρ : String → ℝ) (e : Expr) : Option ℝ :=
  (evalWith Interp.real (fun x => some (some (ρ x))) e).toOption.join

variable (ρ : String → ℝ)

@[simp] theorem value_const (x : Float) : (const x).value ρ = real? x := rfl

@[simp] theorem value_var (x : String) : (var x).value ρ = some (ρ x) := rfl

@[simp] theorem value_neg (e : Expr) : (neg e).value ρ = (e.value ρ).map (-·) := by
  unfold value
  rw [evalWith]
  cases evalWith Interp.real _ e <;> rfl

@[simp] theorem value_binary (op : BinOp) (a b : Expr) :
    (binary op a b).value ρ = (a.value ρ).bind fun x => (b.value ρ).bind (op.real? x) := by
  unfold value
  rw [evalWith]
  cases evalWith Interp.real _ a with
  | error _ => rfl
  | ok x =>
    cases evalWith Interp.real _ b with
    | error _ => cases x <;> rfl
    | ok y => rfl

@[simp] theorem value_call (f : Fn) (a : Expr) : (call f a).value ρ = (a.value ρ).bind f.real? := by
  unfold value
  rw [evalWith]
  cases evalWith Interp.real _ a <;> rfl

@[simp] theorem value_powCall (a b : Expr) : (powCall a b).value ρ = (power a b).value ρ := rfl

@[simp] theorem value_zero : zero.value ρ = some 0 := Double.real?_zero

@[simp] theorem value_one : one.value ρ = some 1 := Double.real?_one

@[simp] theorem value_two : two.value ρ = some 2 := Double.real?_two

theorem value_binary_eq_some_iff {ρ : String → ℝ} {op : BinOp} {a b : Expr} {v : ℝ} :
    (binary op a b).value ρ = some v ↔
      ∃ x y, a.value ρ = some x ∧ b.value ρ = some y ∧ op.real? x y = some v := by
  rw [value_binary]
  simp only [Option.bind_eq_some_iff]
  constructor
  · rintro ⟨x, hx, y, hy, hv⟩
    exact ⟨x, y, hx, hy, hv⟩
  · rintro ⟨x, y, hx, hy, hv⟩
    exact ⟨x, hx, y, hy, hv⟩

theorem value_call_eq_some_iff {ρ : String → ℝ} {f : Fn} {a : Expr} {v : ℝ} :
    (call f a).value ρ = some v ↔ ∃ x, a.value ρ = some x ∧ f.real? x = some v := by
  rw [value_call, Option.bind_eq_some_iff]

theorem value_binary_of {ρ : String → ℝ} {op : BinOp} {a b : Expr} {x y : ℝ}
    (ha : a.value ρ = some x) (hb : b.value ρ = some y) : (binary op a b).value ρ = op.real? x y := by
  rw [value_binary, ha, hb]; rfl

theorem value_call_of {ρ : String → ℝ} {f : Fn} {a : Expr} {u : ℝ} (ha : a.value ρ = some u)
    (h : f.Domain u) : (call f a).value ρ = some (f.toReal u) := by
  rw [value_call, ha]
  exact Fn.real?_of_domain h

end Expr

end Nabla

end
