import Nabla.Proofs.Double.Scientific
import Nabla.Proofs.Double.Void

/-!
# Arithmetic and the sign of zero

Operations take the same numbers to the same numbers, whatever signs the zeros among them have; only a
division by zero tells the two zeros apart. What is neutral or absorbing for numbers is so for doubles
as long as infinity and the undefined value stay away.
-/

open Float.Model
open Float.Model.UnpackedFloat hiding unpack pack

namespace Nabla.Double

/-! ## Equality up to the sign of zero -/

/-- Two unpacked numbers that are the same, or both zero. -/
def Matches (u v : UnpackedFloat) : Prop := u = v ∨ (∃ s, u = .zero s) ∧ ∃ t, v = .zero t

theorem Matches.trans {u v w : UnpackedFloat} (h : Matches u v) (h' : Matches v w) : Matches u w := by
  rcases h with rfl | ⟨hu, hv⟩
  · exact h'
  · rcases h' with rfl | ⟨-, hw⟩
    · exact .inr ⟨hu, hv⟩
    · exact .inr ⟨hu, hw⟩

theorem sameNumber_iff_matches {x y : Float} :
    SameNumber x y ↔ Matches x.toModel.unpack y.toModel.unpack := by
  constructor
  · rintro (h | ⟨hx, hy⟩)
    · rcases eq_or_zeros_of_compare (beq_iff_compare.mp h) with he | ⟨s, t, hs, ht⟩
      · exact .inl he
      · exact .inr ⟨⟨s, hs⟩, t, ht⟩
    · exact .inl ((unpack_of_isNaN hx).trans (unpack_of_isNaN hy).symm)
  · rintro (h | ⟨⟨s, hs⟩, t, ht⟩)
    · rw [eq_of_unpack_eq h]
      exact sameNumber_refl y
    · refine .inl (beq_iff_compare.mpr ?_)
      rw [hs, ht]
      rfl

theorem SameNumber.trans {x y z : Float} (h : SameNumber x y) (h' : SameNumber y z) :
    SameNumber x z := by
  rw [sameNumber_iff_matches] at h h' ⊢
  exact h.trans h'

theorem SameNumber.eq_or_zeros {x y : Float} (h : SameNumber x y) :
    x = y ∨ (x == 0) = true ∧ (y == 0) = true := by
  rw [beq_zero_iff, beq_zero_iff]
  rcases sameNumber_iff_matches.mp h with h | h
  · exact .inl (eq_of_unpack_eq h)
  · exact .inr h

theorem sameNumber_of_zeros {x y : Float} (hx : (x == 0) = true) (hy : (y == 0) = true) :
    SameNumber x y :=
  sameNumber_iff_matches.mpr (.inr ⟨beq_zero_iff.mp hx, beq_zero_iff.mp hy⟩)

theorem SameNumber.beq_zero {x y : Float} (h : SameNumber x y) (hx : (x == 0) = true) :
    (y == 0) = true := by
  rcases h.eq_or_zeros with rfl | ⟨-, hy⟩
  · exact hx
  · exact hy

theorem SameNumber.eq {x y : Float} (h : SameNumber x y) (hx : (x == 0) = false) : x = y := by
  rcases h.eq_or_zeros with rfl | ⟨h0, -⟩
  · rfl
  · rw [hx] at h0
    cases h0

theorem SameNumber.beq_of_beq {x x' y y' : Float} (hx : SameNumber x x') (hy : SameNumber y y')
    (h : (x == y) = true) : (x' == y') = true := by
  refine ((hx.symm.trans (.inl h)).trans hy).resolve_right fun hnan => ?_
  rcases hx.eq_or_zeros with rfl | ⟨-, h0⟩
  · rw [not_beq_of_isNaN hnan.1] at h
    cases h
  · rw [not_beq_of_isNaN hnan.1] at h0
    cases h0

theorem SameNumber.beq_congr {x x' y y' : Float} (hx : SameNumber x x') (hy : SameNumber y y') :
    (x == y) = (x' == y') := by
  rw [Bool.eq_iff_iff]
  exact ⟨hx.beq_of_beq hy, hx.symm.beq_of_beq hy.symm⟩

theorem eq_of_beq {x y : Float} (h : (x == y) = true) (hx : (x == 0) = false) : x = y :=
  SameNumber.eq (.inl h) hx

/-! ## Operations -/

theorem unpack_pack_zero (s : Sign) : (Float.Model.pack (.zero s)).unpack = .zero s := by
  cases s <;> rfl

theorem sameNumber_of_pack {x y : Float} {u v : UnpackedFloat} (hx : x.toModel = Float.Model.pack u)
    (hy : y.toModel = Float.Model.pack v) (h : Matches u v) : SameNumber x y := by
  rw [sameNumber_iff_matches, hx, hy]
  rcases h with rfl | ⟨⟨s, rfl⟩, t, rfl⟩
  · exact .inl rfl
  · exact .inr ⟨⟨s, unpack_pack_zero s⟩, t, unpack_pack_zero t⟩

/-- An operation that does not see the sign of a zero among its operands. -/
structure Blind (f : UnpackedFloat → UnpackedFloat → UnpackedFloat) : Prop where
  left : ∀ s t v, Matches (f (.zero s) v) (f (.zero t) v)
  right : ∀ u s t, Matches (f u (.zero s)) (f u (.zero t))

theorem Blind.congr {f : UnpackedFloat → UnpackedFloat → UnpackedFloat} (hf : Blind f)
    {u u' v v' : UnpackedFloat} (hu : Matches u u') (hv : Matches v v') :
    Matches (f u v) (f u' v') := by
  have hleft : Matches (f u v) (f u' v) := by
    rcases hu with rfl | ⟨⟨s, rfl⟩, t, rfl⟩
    · exact .inl rfl
    · exact hf.left s t v
  have hright : Matches (f u' v) (f u' v') := by
    rcases hv with rfl | ⟨⟨s, rfl⟩, t, rfl⟩
    · exact .inl rfl
    · exact hf.right u' s t
  exact hleft.trans hright

theorem blind_add : Blind (UnpackedFloat.add .binary64) where
  left s t v := by
    cases v with
    | zero r => exact .inr (by cases s <;> cases t <;> cases r <;> exact ⟨⟨_, rfl⟩, _, rfl⟩)
    | infinity | notANumber | finite => exact .inl rfl
  right u s t := by
    cases u with
    | zero r => exact .inr (by cases s <;> cases t <;> cases r <;> exact ⟨⟨_, rfl⟩, _, rfl⟩)
    | infinity | notANumber | finite => exact .inl rfl

theorem blind_sub : Blind (UnpackedFloat.sub .binary64) where
  left s t v := by
    cases v with
    | zero r => exact .inr (by cases s <;> cases t <;> cases r <;> exact ⟨⟨_, rfl⟩, _, rfl⟩)
    | infinity | notANumber | finite => exact .inl rfl
  right u s t := by
    cases u with
    | zero r => exact .inr (by cases s <;> cases t <;> cases r <;> exact ⟨⟨_, rfl⟩, _, rfl⟩)
    | infinity | notANumber | finite => exact .inl rfl

theorem blind_mul : Blind (UnpackedFloat.mul .binary64) where
  left s t v := by
    cases v with
    | zero | finite => exact .inr ⟨⟨_, rfl⟩, _, rfl⟩
    | infinity | notANumber => exact .inl rfl
  right u s t := by
    cases u with
    | zero | finite => exact .inr ⟨⟨_, rfl⟩, _, rfl⟩
    | infinity | notANumber => exact .inl rfl

namespace SameNumber

variable {x x' y y' : Float}

theorem neg (h : SameNumber x x') : SameNumber (-x) (-x') := by
  rw [sameNumber_iff_matches, unpack_neg, unpack_neg]
  rcases sameNumber_iff_matches.mp h with h | ⟨⟨s, hs⟩, t, ht⟩
  · exact .inl (congrArg UnpackedFloat.neg h)
  · rw [hs, ht]
    exact .inr ⟨⟨_, rfl⟩, _, rfl⟩

theorem add (hx : SameNumber x x') (hy : SameNumber y y') : SameNumber (x + y) (x' + y') :=
  sameNumber_of_pack rfl rfl
    (blind_add.congr (sameNumber_iff_matches.mp hx) (sameNumber_iff_matches.mp hy))

theorem sub (hx : SameNumber x x') (hy : SameNumber y y') : SameNumber (x - y) (x' - y') :=
  sameNumber_of_pack rfl rfl
    (blind_sub.congr (sameNumber_iff_matches.mp hx) (sameNumber_iff_matches.mp hy))

theorem mul (hx : SameNumber x x') (hy : SameNumber y y') : SameNumber (x * y) (x' * y') :=
  sameNumber_of_pack rfl rfl
    (blind_mul.congr (sameNumber_iff_matches.mp hx) (sameNumber_iff_matches.mp hy))

theorem div_left (hx : SameNumber x x') (y : Float) : SameNumber (x / y) (x' / y) := by
  -- There is no such lemma for `y`: a zero of the other sign gives the other infinity.
  refine sameNumber_of_pack rfl rfl
    (u := UnpackedFloat.div .binary64 x.toModel.unpack y.toModel.unpack)
    (v := UnpackedFloat.div .binary64 x'.toModel.unpack y.toModel.unpack) ?_
  rcases sameNumber_iff_matches.mp hx with h | ⟨⟨s, hs⟩, t, ht⟩
  · rw [h]
    exact .inl rfl
  · rw [hs, ht]
    cases y.toModel.unpack with
    | zero | notANumber => exact .inl rfl
    | infinity | finite => exact .inr ⟨⟨_, rfl⟩, _, rfl⟩

end SameNumber

/-! ## Zero and one -/

theorem unpack_of_isFinite {x : Float} (h : x.isFinite = true) :
    (∃ s, x.toModel.unpack = .zero s) ∨ ∃ s m q hm, x.toModel.unpack = .finite s m q hm := by
  have hfinite : x.toModel.unpack.isFinite = true := h
  cases hu : x.toModel.unpack with
  | zero s => exact .inl ⟨s, rfl⟩
  | finite s m q hm => exact .inr ⟨s, m, q, hm, rfl⟩
  | infinity s | notANumber =>
    rw [hu] at hfinite
    cases hfinite

theorem not_isNaN_of_isFinite {x : Float} (h : x.isFinite = true) : x.isNaN = false := by
  rw [Bool.eq_false_iff]
  intro hnan
  have hfinite : x.toModel.unpack.isFinite = true := h
  rw [isNaN_iff.mp hnan] at hfinite
  cases hfinite

theorem isFinite_neg (x : Float) : (-x).isFinite = x.isFinite := by
  show (-x).toModel.unpack.isFinite = x.toModel.unpack.isFinite
  rw [unpack_neg]
  cases x.toModel.unpack <;> rfl

theorem SameNumber.beq {x y : Float} (h : SameNumber x y) (hx : x.isFinite = true) :
    (x == y) = true := by
  refine h.resolve_right fun hnan => ?_
  rw [not_isNaN_of_isFinite hx] at hnan
  cases hnan.1

theorem isFinite_of_beq_zero {x : Float} (h : (x == 0) = true) : x.isFinite = true := by
  obtain ⟨s, hs⟩ := beq_zero_iff.mp h
  show x.toModel.unpack.isFinite = true
  rw [hs]
  rfl

theorem SameNumber.isFinite {x y : Float} (h : SameNumber x y) (hx : x.isFinite = true) :
    y.isFinite = true := by
  rcases h.eq_or_zeros with rfl | ⟨-, hy⟩
  · exact hx
  · exact isFinite_of_beq_zero hy

theorem Void.beq_zero_of_isFinite {x : Float} (h : Void x) (hx : x.isFinite = true) :
    (x == 0) = true := by
  refine h.resolve_right fun hnan => ?_
  rw [not_isNaN_of_isFinite hx] at hnan
  cases hnan

theorem sameNumber_add_zero (x : Float) : SameNumber (x + 0) x := by
  refine sameNumber_of_pack rfl (pack_unpack x.toModel).symm
    (u := UnpackedFloat.add .binary64 x.toModel.unpack (0 : Float).toModel.unpack) ?_
  rw [unpack_zero]
  cases x.toModel.unpack with
  | zero s => exact .inr (by cases s <;> exact ⟨⟨_, rfl⟩, _, rfl⟩)
  | infinity | notANumber | finite => exact .inl rfl

theorem beq_zero_of_pack {x : Float} {s : Sign} (h : x.toModel = Float.Model.pack (.zero s)) :
    (x == 0) = true :=
  beq_zero_iff.mpr ⟨s, by rw [h, unpack_pack_zero]⟩

theorem zero_mul_of_finite {x y : Float} (hx : (x == 0) = true) (hy : y.isFinite = true) :
    (x * y == 0) = true := by
  obtain ⟨s, hs⟩ := beq_zero_iff.mp hx
  have hmul : (x * y).toModel =
      Float.Model.pack (UnpackedFloat.mul .binary64 x.toModel.unpack y.toModel.unpack) := rfl
  rw [hs] at hmul
  rcases unpack_of_isFinite hy with ⟨t, ht⟩ | ⟨t, m, q, hm, ht⟩ <;> rw [ht] at hmul <;>
    exact beq_zero_of_pack hmul

theorem mul_zero_of_finite {x y : Float} (hx : x.isFinite = true) (hy : (y == 0) = true) :
    (x * y == 0) = true := by
  obtain ⟨s, hs⟩ := beq_zero_iff.mp hy
  have hmul : (x * y).toModel =
      Float.Model.pack (UnpackedFloat.mul .binary64 x.toModel.unpack y.toModel.unpack) := rfl
  rw [hs] at hmul
  rcases unpack_of_isFinite hx with ⟨t, ht⟩ | ⟨t, m, q, hm, ht⟩ <;> rw [ht] at hmul <;>
    exact beq_zero_of_pack hmul

theorem zero_div_of_number {x y : Float} (hx : (x == 0) = true) (hnan : y.isNaN = false)
    (hy : (y == 0) = false) : (x / y == 0) = true := by
  obtain ⟨s, hs⟩ := beq_zero_iff.mp hx
  have hdiv : (x / y).toModel =
      Float.Model.pack (UnpackedFloat.div .binary64 x.toModel.unpack y.toModel.unpack) := rfl
  rw [hs] at hdiv
  cases hu : y.toModel.unpack with
  | zero t =>
    rw [beq_zero_iff.mpr ⟨t, hu⟩] at hy
    cases hy
  | notANumber =>
    rw [isNaN_iff.mpr hu] at hnan
    cases hnan
  | infinity | finite =>
    rw [hu] at hdiv
    exact beq_zero_of_pack hdiv

theorem not_beq_zero_of_pos {x : Float} (h : 0 < x) : (x == 0) = false := by
  rw [Bool.eq_false_iff]
  intro h0
  obtain ⟨s, hs⟩ := beq_zero_iff.mp h0
  have hlt : 0 < x ↔ ((0 : Float).toModel.unpack.compare x.toModel.unpack == some .lt) = true :=
    decide_eq_true_iff
  rw [hlt, unpack_zero, hs] at h
  cases h

theorem not_beq_zero_of_beq_one {x : Float} (h : (x == 1) = true) : (x == 0) = false := by
  rw [Bool.eq_false_iff]
  intro h0
  have hvoid : Void x := .inl h0
  rw [hvoid.not_beq_one] at h
  cases h

theorem canonical_one : Canonical (2 ^ 52) (-52) := by
  constructor <;> norm_num

theorem unpack_one :
    (1 : Float).toModel.unpack = .finite .positive (2 ^ 52) (-52) canonical_one.pos := by
  rfl

theorem eq_of_pack {x y : Float} (h : x.toModel = Float.Model.pack y.toModel.unpack) : x = y := by
  rw [pack_unpack] at h
  exact congrArg Float.ofModel h

theorem div_self_of_finite {x : Float} (hx : x.isFinite = true) (h0 : (x == 0) = false) :
    x / x = 1 := by
  rcases unpack_of_isFinite hx with ⟨s, hs⟩ | ⟨s, m, q, hm, hs⟩
  · rw [beq_zero_iff.mpr ⟨s, hs⟩] at h0
    cases h0
  · have hratio : (m * 2 ^ q / (m * 2 ^ q) : ℚ) = (2 ^ 52 : Nat) * 2 ^ (-52 : Int) := by
      have hm' : (m : ℚ) ≠ 0 := by exact_mod_cast hm.ne'
      rw [div_self (mul_ne_zero hm' (two_zpow_pos q).ne')]
      norm_num
    have hround : RoundsTo (2 ^ 52) (-52) (m * 2 ^ q / (m * 2 ^ q)) :=
      hratio ▸ roundsTo_self (2 ^ 52) (-52)
    have hdiv : (x / x).toModel =
        Float.Model.pack (UnpackedFloat.div .binary64 x.toModel.unpack x.toModel.unpack) := rfl
    rw [hs, div_eq canonical_one hround] at hdiv
    have hsign : s / s = .positive := by cases s <;> rfl
    rw [hsign, ← unpack_one] at hdiv
    exact eq_of_pack hdiv

theorem div_one (x : Float) : x / 1 = x := by
  have hdiv : (x / 1).toModel =
      Float.Model.pack (UnpackedFloat.div .binary64 x.toModel.unpack (1 : Float).toModel.unpack) := rfl
  have hself : UnpackedFloat.div .binary64 x.toModel.unpack (1 : Float).toModel.unpack =
      x.toModel.unpack := by
    rw [unpack_one]
    cases hu : x.toModel.unpack with
    | zero s | infinity s => cases s <;> rfl
    | notANumber => rfl
    | finite s m q hm =>
      have hratio : (m * 2 ^ q / ((2 ^ 52 : Nat) * 2 ^ (-52 : Int)) : ℚ) = m * 2 ^ q := by
        norm_num
      have hround : RoundsTo m q (m * 2 ^ q / ((2 ^ 52 : Nat) * 2 ^ (-52 : Int))) := by
        rw [hratio]
        exact roundsTo_self m q
      rw [div_eq (canonical_of_unpack hu) hround]
      cases s <;> rfl
  rw [hself] at hdiv
  exact eq_of_pack hdiv

end Nabla.Double
