import Mathlib.Data.Real.Basic
import Mathlib.Tactic.NormNum
import Nabla.Proofs.Double.Bits

/-!
# Doubles as real numbers

A finite double stands for a real number. The change of sign is exact, doubles that compare equal
stand for the same number, and each value that is no number exists once.
-/

open Float.Model
open Float.Model.UnpackedFloat hiding unpack pack

namespace Nabla

/-! ## The real value -/

noncomputable def Dyadic.toReal (d : Dyadic) : ℝ :=
  (Dyadic.withSign d.negative d.significand : ℝ) * 2 ^ d.exponent

/-- The real number that a double stands for, if it is finite. -/
noncomputable def real? (x : Float) : Option ℝ := (Dyadic.ofFloat? x).map Dyadic.toReal

namespace Double

theorem real?_eq (x : Float) : real? x = (dyadic? x.toModel.unpack).map Dyadic.toReal := by
  unfold real?
  rw [ofFloat?_eq_dyadic?]

theorem real?_of_dyadic {x : Float} {d : Dyadic} {v : ℝ} (h : Dyadic.ofFloat? x = some d)
    (hv : d.toReal = v) : real? x = some v := by
  unfold real?
  rw [h, ← hv]
  rfl

theorem real?_zero : real? 0 = some 0 :=
  real?_of_dyadic (d := ⟨false, 0, -1074⟩) (by decide +kernel)
    (by simp [Dyadic.toReal, Dyadic.withSign])

theorem real?_one : real? 1 = some 1 :=
  real?_of_dyadic (d := ⟨false, 2 ^ 52, -52⟩) (by decide +kernel)
    (by norm_num [Dyadic.toReal, Dyadic.withSign])

theorem real?_two : real? 2 = some 2 :=
  real?_of_dyadic (d := ⟨false, 2 ^ 52, -51⟩) (by decide +kernel)
    (by norm_num [Dyadic.toReal, Dyadic.withSign])

theorem isFinite_iff (x : Float) : x.isFinite = true ↔ ∃ v, real? x = some v := by
  rw [real?_eq]
  show x.toModel.unpack.isFinite = true ↔ _
  cases x.toModel.unpack <;> simp [UnpackedFloat.isFinite, dyadic?]

theorem withSign_neg (b : Bool) (n : Nat) : Dyadic.withSign (!b) n = -Dyadic.withSign b n := by
  cases b <;> simp [Dyadic.withSign]

theorem isNegative_neg (s : Sign) : isNegative (-s) = !isNegative s := by
  cases s <;> rfl

theorem real?_neg (x : Float) : real? (-x) = (real? x).map (-·) := by
  rw [real?_eq, real?_eq, unpack_neg]
  cases x.toModel.unpack with
  | infinity s => rfl
  | notANumber => rfl
  | zero s => simp [UnpackedFloat.neg, dyadic?, Dyadic.toReal, isNegative_neg, withSign_neg]
  | finite s m e h => simp [UnpackedFloat.neg, dyadic?, Dyadic.toReal, isNegative_neg, withSign_neg]

/-! ## Comparison -/

theorem finite_eq_of_compare {m n : Nat} {e k : Int} (s : Sign) (hm : 0 < m) (hn : 0 < n)
    (h : (compare e k).then (compare m n) = .eq) : finite s m e hm = finite s n k hn := by
  rw [Ordering.then_eq_eq] at h
  obtain rfl := compare_eq_iff_eq.mp h.1
  obtain rfl := compare_eq_iff_eq.mp h.2
  rfl

theorem eq_or_zeros_of_compare {u v : UnpackedFloat} (h : u.compare v = some .eq) :
    u = v ∨ ∃ s t, u = .zero s ∧ v = .zero t := by
  unfold UnpackedFloat.compare at h
  split at h
  case h_3 s t =>
    left
    cases s <;> cases t <;> first | rfl | cases h
  case h_12 s t => exact Or.inr ⟨s, t, rfl, rfl⟩
  case h_13 =>
    left
    apply finite_eq_of_compare
    simpa using h
  case h_16 =>
    left
    apply finite_eq_of_compare
    simpa using h
  all_goals cases h

theorem beq_iff_compare {x y : Float} :
    (x == y) = true ↔ x.toModel.unpack.compare y.toModel.unpack = some .eq := by
  show (x.toModel.unpack.compare y.toModel.unpack == some .eq) = true ↔ _
  exact beq_iff_eq

theorem real?_of_beq {x y : Float} (h : (x == y) = true) : real? x = real? y := by
  rw [real?_eq, real?_eq]
  rcases eq_or_zeros_of_compare (beq_iff_compare.mp h) with he | ⟨s, t, hs, ht⟩
  · rw [he]
  · rw [hs, ht]
    simp [dyadic?, Dyadic.toReal, Dyadic.withSign]

/-! ## Values that are no numbers -/

theorem eq_of_unpack_eq {x y : Float} (h : x.toModel.unpack = y.toModel.unpack) : x = y := by
  obtain ⟨a⟩ := x
  obtain ⟨b⟩ := y
  have h' : a.unpack = b.unpack := h
  rw [← pack_unpack a, ← pack_unpack b, h']

theorem unpack_of_isNaN {x : Float} (h : x.isNaN = true) : x.toModel.unpack = .notANumber := by
  have h' : x.toModel.unpack.isNaN = true := h
  generalize x.toModel.unpack = u at h' ⊢
  cases u with
  | notANumber => rfl
  | infinity s | zero s | finite s m e hm => cases h'

theorem unpack_of_isInf {x : Float} (h : x.isInf = true) : ∃ s, x.toModel.unpack = .infinity s := by
  have h' : x.toModel.unpack.isInf = true := h
  generalize x.toModel.unpack = u at h' ⊢
  cases u with
  | infinity s => exact ⟨s, rfl⟩
  | notANumber | zero s | finite s m e hm => cases h'

theorem eq_nan {x : Float} (h : x.isNaN = true) : x = 0.0 / 0.0 := by
  apply eq_of_unpack_eq
  rw [unpack_of_isNaN h, unpack_of_isNaN (by decide +kernel : (0.0 / 0.0 : Float).isNaN = true)]

theorem unpack_zero : (0 : Float).toModel.unpack = .zero .positive := by
  rfl

theorem zero_lt_iff {x : Float} {s : Sign} (h : x.toModel.unpack = .infinity s) :
    0 < x ↔ s = .positive := by
  have hlt : 0 < x ↔ ((0 : Float).toModel.unpack.compare x.toModel.unpack == some .lt) = true :=
    decide_eq_true_iff
  rw [hlt, unpack_zero, h]
  cases s <;> simp [UnpackedFloat.compare]

theorem lt_zero_iff {x : Float} {s : Sign} (h : x.toModel.unpack = .infinity s) :
    x < 0 ↔ s = .negative := by
  have hlt : x < 0 ↔ (x.toModel.unpack.compare (0 : Float).toModel.unpack == some .lt) = true :=
    decide_eq_true_iff
  rw [hlt, unpack_zero, h]
  cases s <;> simp [UnpackedFloat.compare]

theorem unpack_infinity : (1.0 / 0.0 : Float).toModel.unpack = .infinity .positive := by
  have hi : (1.0 / 0.0 : Float).isInf = true := by decide +kernel
  have hp : 0 < (1.0 / 0.0 : Float) := by decide +kernel
  obtain ⟨s, hs⟩ := unpack_of_isInf hi
  rw [hs, (zero_lt_iff hs).mp hp]

theorem eq_infinity {x : Float} (h : x.isInf = true) (hp : 0 < x) : x = 1.0 / 0.0 := by
  obtain ⟨s, hs⟩ := unpack_of_isInf h
  apply eq_of_unpack_eq
  rw [unpack_infinity, hs, (zero_lt_iff hs).mp hp]

theorem eq_neg_infinity {x : Float} (h : x.isInf = true) (hp : ¬ 0 < x) : x = -(1.0 / 0.0) := by
  obtain ⟨s, hs⟩ := unpack_of_isInf h
  apply eq_of_unpack_eq
  rw [unpack_neg, unpack_infinity, hs]
  cases s with
  | negative => rfl
  | positive => exact absurd ((zero_lt_iff hs).mpr rfl) hp

/-! ## Equality as numbers -/

/-- The same number, or both undefined. -/
def SameNumber (x y : Float) : Prop := (x == y) = true ∨ (x.isNaN = true ∧ y.isNaN = true)

theorem compare_self {u : UnpackedFloat} (h : u ≠ .notANumber) : u.compare u = some .eq := by
  cases u with
  | notANumber => exact absurd rfl h
  | infinity s => cases s <;> rfl
  | zero s => rfl
  | finite s m e hm => cases s <;> simp [UnpackedFloat.compare]

theorem sameNumber_refl (x : Float) : SameNumber x x := by
  by_cases h : x.toModel.unpack = .notANumber
  · right
    have hn : x.isNaN = true := by
      show x.toModel.unpack.isNaN = true
      rw [h]; rfl
    exact ⟨hn, hn⟩
  · exact Or.inl (beq_iff_compare.mpr (compare_self h))

theorem SameNumber.symm {x y : Float} (h : SameNumber x y) : SameNumber y x := by
  rcases h with h | ⟨hx, hy⟩
  · rcases eq_or_zeros_of_compare (beq_iff_compare.mp h) with he | ⟨s, t, hs, ht⟩
    · rw [eq_of_unpack_eq he]
      exact sameNumber_refl y
    · left
      rw [beq_iff_compare, hs, ht]
      rfl
  · exact Or.inr ⟨hy, hx⟩

theorem zero_add_eq_self {x : Float} (h : ∀ s, x.toModel.unpack ≠ .zero s) : 0 + x = x := by
  have hadd : (0 + x).toModel =
      Float.Model.pack (UnpackedFloat.add .binary64 (.zero .positive) x.toModel.unpack) := rfl
  have hself : UnpackedFloat.add .binary64 (.zero .positive) x.toModel.unpack = x.toModel.unpack := by
    cases hu : x.toModel.unpack with
    | zero s => exact absurd hu (h s)
    | infinity s | notANumber | finite s m e hm => rfl
  rw [hself, pack_unpack] at hadd
  exact congrArg Float.ofModel hadd

theorem unpack_zero_add {x : Float} {s : Sign} (h : x.toModel.unpack = .zero s) :
    (0 + x).toModel.unpack = .zero .positive := by
  have hadd : (0 + x).toModel =
      Float.Model.pack (UnpackedFloat.add .binary64 (.zero .positive) x.toModel.unpack) := rfl
  rw [hadd, h]
  cases s <;> rfl

theorem sameNumber_zero_add (x : Float) : SameNumber (0 + x) x := by
  by_cases h : ∃ s, x.toModel.unpack = .zero s
  · obtain ⟨s, hs⟩ := h
    left
    rw [beq_iff_compare, unpack_zero_add hs, hs]
    rfl
  · rw [zero_add_eq_self (fun s hs => h ⟨s, hs⟩)]
    exact sameNumber_refl x

end Double

end Nabla
