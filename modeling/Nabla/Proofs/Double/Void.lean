import Nabla.Proofs.Double.Real

/-!
# Zero and the undefined value

Arithmetic on zeros and undefined values gives zeros and undefined values: a product with zero is
zero or undefined, whatever the other factor is, and what is undefined stays so.
-/

open Float.Model
open Float.Model.UnpackedFloat hiding unpack pack

namespace Nabla.Double

/-- Zero or undefined. -/
def Void (x : Float) : Prop := (x == 0) = true ∨ x.isNaN = true

theorem beq_zero_iff {x : Float} : (x == 0) = true ↔ ∃ s, x.toModel.unpack = .zero s := by
  rw [beq_iff_compare, unpack_zero]
  constructor
  · intro h
    rcases eq_or_zeros_of_compare h with he | ⟨s, t, hs, -⟩
    · exact ⟨.positive, he⟩
    · exact ⟨s, hs⟩
  · rintro ⟨s, hs⟩
    rw [hs]
    rfl

theorem beq_zero_of_beq {x y : Float} (h : (x == y) = true) (hx : (x == 0) = true) :
    (y == 0) = true := by
  obtain ⟨s, hs⟩ := beq_zero_iff.mp hx
  rcases eq_or_zeros_of_compare (beq_iff_compare.mp h) with he | ⟨-, t, -, ht⟩
  · exact beq_zero_iff.mpr ⟨s, he ▸ hs⟩
  · exact beq_zero_iff.mpr ⟨t, ht⟩

theorem isNaN_iff {x : Float} : x.isNaN = true ↔ x.toModel.unpack = .notANumber := by
  constructor
  · exact unpack_of_isNaN
  · intro h
    show x.toModel.unpack.isNaN = true
    rw [h]
    rfl

/-- An unpacked number that is zero or undefined. -/
def IsVoid : UnpackedFloat → Prop
  | .zero _ | .notANumber => True
  | .infinity _ | .finite _ _ _ _ => False

theorem void_iff {x : Float} : Void x ↔ IsVoid x.toModel.unpack := by
  unfold Void
  rw [beq_zero_iff, isNaN_iff]
  cases x.toModel.unpack <;> simp [IsVoid]

theorem void_of_pack {x : Float} {u : UnpackedFloat} (hx : x.toModel = Float.Model.pack u)
    (hu : IsVoid u) : Void x := by
  rw [void_iff, hx]
  cases u with
  | zero s => cases s <;> trivial
  | notANumber => trivial
  | infinity s | finite s m e h => exact hu.elim

theorem void_zero : Void 0 := Or.inl (by decide +kernel)

theorem Void.neg {x : Float} (hx : Void x) : Void (-x) := by
  rw [void_iff] at hx ⊢
  rw [unpack_neg]
  cases hu : x.toModel.unpack with
  | zero s | notANumber => trivial
  | infinity s | finite s m e h => exact (hu ▸ hx).elim

theorem isVoid_add {u v : UnpackedFloat} (hu : IsVoid u) (hv : IsVoid v) :
    IsVoid (UnpackedFloat.add .binary64 u v) := by
  cases u with
  | notANumber => trivial
  | infinity s | finite s m e h => exact hu.elim
  | zero s =>
    cases v with
    | notANumber => trivial
    | infinity t | finite t m e h => exact hv.elim
    | zero t => cases s <;> cases t <;> trivial

theorem isVoid_sub {u v : UnpackedFloat} (hu : IsVoid u) (hv : IsVoid v) :
    IsVoid (UnpackedFloat.sub .binary64 u v) := by
  cases u with
  | notANumber => trivial
  | infinity s | finite s m e h => exact hu.elim
  | zero s =>
    cases v with
    | notANumber => trivial
    | infinity t | finite t m e h => exact hv.elim
    | zero t => cases s <;> cases t <;> trivial

theorem isVoid_mul_left {u v : UnpackedFloat} (hu : IsVoid u) :
    IsVoid (UnpackedFloat.mul .binary64 u v) := by
  cases u with
  | notANumber => trivial
  | infinity s | finite s m e h => exact hu.elim
  | zero s => cases v <;> trivial

theorem isVoid_mul_right {u v : UnpackedFloat} (hv : IsVoid v) :
    IsVoid (UnpackedFloat.mul .binary64 u v) := by
  cases v with
  | notANumber => cases u <;> trivial
  | infinity s | finite s m e h => exact hv.elim
  | zero s => cases u <;> trivial

namespace Void

variable {x y : Float}

theorem add (hx : Void x) (hy : Void y) : Void (x + y) :=
  void_of_pack rfl (isVoid_add (void_iff.mp hx) (void_iff.mp hy))

theorem sub (hx : Void x) (hy : Void y) : Void (x - y) :=
  void_of_pack rfl (isVoid_sub (void_iff.mp hx) (void_iff.mp hy))

theorem mul_left (hx : Void x) (y : Float) : Void (x * y) :=
  void_of_pack rfl (isVoid_mul_left (void_iff.mp hx))

theorem mul_right (x : Float) (hy : Void y) : Void (x * y) :=
  void_of_pack rfl (isVoid_mul_right (void_iff.mp hy))

end Void

theorem void_div_of_isNaN {x : Float} (hx : x.isNaN = true) (y : Float) : Void (x / y) := by
  refine void_of_pack rfl (u := UnpackedFloat.div .binary64 x.toModel.unpack y.toModel.unpack) ?_
  rw [isNaN_iff.mp hx]
  trivial

theorem not_beq_of_isNaN {x : Float} (hx : x.isNaN = true) (y : Float) : (x == y) = false := by
  rw [Bool.eq_false_iff]
  intro h
  rw [beq_iff_compare, isNaN_iff.mp hx] at h
  cases h

theorem Void.not_beq_one {x : Float} (hx : Void x) : (x == 1) = false := by
  rcases hx with h0 | hn
  · rw [Bool.eq_false_iff]
    intro h1
    have h : some (0 : ℝ) = some 1 := by
      rw [← real?_zero, ← real?_one, ← real?_of_beq h0, real?_of_beq h1]
    exact zero_ne_one (Option.some.inj h)
  · exact not_beq_of_isNaN hn 1

end Nabla.Double
