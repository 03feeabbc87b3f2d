import Mathlib.Tactic.FieldSimp
import Nabla.Proofs.Double.Rounding

/-!
# The double nearest to a decimal

A decimal is read by one exact multiplication or division and one rounding. Where its digits and its
power of ten are doubles themselves, they are multiplied or divided as doubles, which comes to the
same.
-/

open Float.Model
open Float.Model.UnpackedFloat hiding unpack pack

namespace Nabla.Double

variable {m : Nat} {q : Int}

/-! ## Canonical numbers in bits -/

theorem toNat_leading (v : BitVec 52) : (1#1 ++ v).toNat = 2 ^ 52 + v.toNat := by
  rw [toNat_append]
  rfl

theorem canonical_of_unpack {b : Bits} {s : Sign} {hp : 0 < m}
    (h : UnpackedFloat.unpack .binary64 b = .finite s m q hp) : Canonical m q := by
  have hlt : (unpackMantissa b).toNat < 2 ^ 52 := (unpackMantissa b).isLt
  have he : (unpackExponent b).toNat < 2 ^ 11 := (unpackExponent b).isLt
  unfold UnpackedFloat.unpack at h
  simp only [bias_eq] at h
  split_ifs at h with h1 h2 h3 h4
  · simp only [UnpackedFloat.finite.injEq] at h
    obtain ⟨-, rfl, rfl⟩ := h
    rw [h3]
    exact ⟨hp, by omega, by decide, by decide, fun _ => by decide⟩
  · simp only [UnpackedFloat.finite.injEq, toNat_leading] at h
    obtain ⟨-, rfl, rfl⟩ := h
    have h1 : (unpackExponent b).toNat ≠ 2047 := fun h => h1 (BitVec.eq_of_toNat_eq h)
    have h3 : (unpackExponent b).toNat ≠ 0 := fun h => h3 (BitVec.eq_of_toNat_eq h)
    exact ⟨hp, by omega, by omega, by omega, by omega⟩

theorem eq_finite_of_dyadic? {u : UnpackedFloat} {s : Sign} (hp : 0 < m)
    (h : dyadic? u = some ⟨isNegative s, m, q⟩) : u = .finite s m q hp := by
  cases u with
  | finite t n e hn =>
    simp only [dyadic?, Option.some.injEq, Dyadic.mk.injEq] at h
    obtain ⟨hs, rfl, rfl⟩ := h
    have hst : t = s := by cases s <;> cases t <;> simp_all [isNegative]
    rw [hst]
  | zero t =>
    simp only [dyadic?, Option.some.injEq, Dyadic.mk.injEq] at h
    omega
  | infinity t => cases h
  | notANumber => cases h

theorem unpack_pack_finite (s : Sign) (hc : Canonical m q) :
    UnpackedFloat.unpack .binary64 (UnpackedFloat.pack .binary64 (.finite s m q hc.pos)) =
      .finite s m q hc.pos := by
  apply eq_finite_of_dyadic?
  obtain ⟨hpos, hlt, hlow, hhigh, hfull⟩ := hc
  by_cases hm : m < 2 ^ 52
  · -- The leading bit is missing, and the exponent is the least one.
    obtain rfl := hfull hm
    have hv : (BitVec.ofNat 52 m).toNat = m := by
      rw [BitVec.toNat_ofNat, Nat.mod_eq_of_lt hm]
    have hpack := pack_subnormal s (BitVec.ofNat 52 m) (by omega) (-1074) rfl
    simp only [hv] at hpack
    rw [hpack, dyadic?_unpack, unpackExponent_packComponents, unpackMantissa_packComponents,
      unpackSign_packComponents, ofBitVec_toBitVec, hv]
    rfl
  · have hv : (1#1 ++ BitVec.ofNat 52 (m - 2 ^ 52)).toNat = m := by
      rw [toNat_leading, BitVec.toNat_ofNat]
      omega
    have he : (BitVec.ofNat 11 (q + 1075).toNat).toNat = (q + 1075).toNat := by
      rw [BitVec.toNat_ofNat]
      omega
    have hpack := pack_normal s (BitVec.ofNat 11 (q + 1075).toNat) (BitVec.ofNat 52 (m - 2 ^ 52))
      (fun h => by rw [h] at he; simp at he; omega) (by omega) q (by omega)
    rw [toNat_leading] at hv
    simp only [toNat_leading, hv] at hpack
    rw [hpack, dyadic?_unpack, unpackExponent_packComponents, unpackMantissa_packComponents,
      unpackSign_packComponents, ofBitVec_toBitVec, he, hv, if_neg (by omega), if_neg (by omega)]
    have hq : ((q + 1075).toNat : Int) - 1075 = q := by omega
    rw [hq]

/-! ## Products and quotients -/

theorem locates_exact (n : Nat) : Locates (.ofMantissaAndAccuracy n .exact) n :=
  ⟨0, by simp [ExtendedMantissa.ofMantissaAndAccuracy, half], le_rfl, by norm_num,
    by simp [ExtendedMantissa.ofMantissaAndAccuracy]⟩

theorem locates_quotient (a : Nat) {b : Nat} (hb : 0 < b) :
    Locates (.ofMantissaAndAccuracy (a / b) (accuracyOfFraction (a % b) b)) (a / b) := by
  have hb' : (0 : ℚ) < b := by exact_mod_cast hb
  have ha : (a : ℚ) / b = (a / b : Nat) + (a % b : Nat) / b := by
    have h : (a : ℚ) = b * (a / b : Nat) + (a % b : Nat) := by
      exact_mod_cast (Nat.div_add_mod a b).symm
    rw [div_eq_iff hb'.ne', add_mul, div_mul_cancel₀ _ hb'.ne']
    linarith
  have hlt : ((a % b : Nat) : ℚ) < b := by exact_mod_cast Nat.mod_lt a hb
  rw [ha]
  generalize a % b = c at *
  unfold accuracyOfFraction
  split_ifs with h0
  · rw [h0, Nat.cast_zero, zero_div, add_zero]
    exact locates_exact _
  · have hpos : (0 : ℚ) < c / b := div_pos (by exact_mod_cast Nat.pos_of_ne_zero h0) hb'
    rcases h : compare (2 * c) b with _ | _ | _
    · have h : (2 * c : ℚ) < b := by exact_mod_cast compare_lt_iff_lt.mp h
      have h : (c / b : ℚ) < 1 / 2 := by
        rw [div_lt_iff₀ hb']
        linarith
      exact ⟨c / b, by simp [ExtendedMantissa.ofMantissaAndAccuracy, half], hpos.le, h,
        by simpa [ExtendedMantissa.ofMantissaAndAccuracy] using hpos⟩
    · have h : (2 * c : ℚ) = b := by exact_mod_cast compare_eq_iff_eq.mp h
      have h : (c / b : ℚ) = 1 / 2 := by
        rw [div_eq_iff hb'.ne']
        linarith
      exact ⟨0, by simp [ExtendedMantissa.ofMantissaAndAccuracy, half, h], le_rfl, by norm_num,
        by simp [ExtendedMantissa.ofMantissaAndAccuracy]⟩
    · have h : (b : ℚ) < 2 * c := by exact_mod_cast compare_gt_iff_gt.mp h
      have h : (1 / 2 : ℚ) < c / b := by
        rw [lt_div_iff₀ hb']
        linarith
      have h1 : (c / b : ℚ) < 1 := by rwa [div_lt_iff₀ hb', one_mul]
      exact ⟨c / b - 1 / 2, by simp [ExtendedMantissa.ofMantissaAndAccuracy, half], by linarith,
        by linarith, by simpa [ExtendedMantissa.ofMantissaAndAccuracy] using h⟩

theorem mul_eq {s₁ s₂ : Sign} {m₁ m₂ : Nat} {e₁ e₂ : Int} {h₁ : 0 < m₁} {h₂ : 0 < m₂}
    (hc : Canonical m q) (hr : RoundsTo m q (m₁ * 2 ^ e₁ * (m₂ * 2 ^ e₂)))
    (hbits : 2 ^ 52 ≤ m₁ * m₂) :
    UnpackedFloat.mul .binary64 (.finite s₁ m₁ e₁ h₁) (.finite s₂ m₂ e₂ h₂) =
      .finite (s₁ * s₂) m q hc.pos := by
  refine roundWithAccuracy_eq hc hr ?_ ?_
  · have h : (m₁ * 2 ^ e₁ * (m₂ * 2 ^ e₂) : ℚ) / 2 ^ (e₁ + e₂) = (m₁ * m₂ : Nat) := by
      rw [div_eq_iff (two_zpow_pos _).ne', zpow_add₀ two_ne_zero, Nat.cast_mul]
      ring
    rw [h]
    exact locates_exact _
  · have := (Nat.le_log2 (Nat.mul_pos h₁ h₂).ne').mpr hbits
    rw [targetExponent_eq, totalExponent]
    omega

theorem div_eq {s₁ s₂ : Sign} {m₁ m₂ : Nat} {e₁ e₂ : Int} {h₁ : 0 < m₁} {h₂ : 0 < m₂}
    (hc : Canonical m q) (hr : RoundsTo m q (m₁ * 2 ^ e₁ / (m₂ * 2 ^ e₂))) :
    UnpackedFloat.div .binary64 (.finite s₁ m₁ e₁ h₁) (.finite s₂ m₂ e₂ h₂) =
      .finite (s₁ / s₂) m q hc.pos := by
  show (let (n, e, acc) := divCore .binary64 m₁ e₁ m₂ e₂;
    roundWithAccuracy .binary64 (s₁ / s₂) n e acc) = _
  unfold divCore
  simp only
  generalize hp : min (e₁ - e₂) (Format.binary64.targetExponent
    (totalExponent m₁ e₁ - totalExponent m₂ e₂)) = p
  generalize hk : (e₁ - e₂ - p).toNat = k
  rw [targetExponent_eq, totalExponent, totalExponent] at hp
  have hek : e₁ - e₂ = p + k := by omega
  refine roundWithAccuracy_eq hc hr ?_ ?_
  · have hm₂ : (m₂ : ℚ) ≠ 0 := by exact_mod_cast h₂.ne'
    have h : (m₁ * 2 ^ e₁ / (m₂ * 2 ^ e₂) : ℚ) / 2 ^ p = (m₁ <<< k : Nat) / m₂ := by
      have he₁ : e₁ = k + (e₂ + p) := by omega
      rw [he₁, zpow_add₀ two_ne_zero, zpow_add₀ two_ne_zero, zpow_natCast, Nat.shiftLeft_eq,
        Nat.cast_mul, Nat.cast_pow, Nat.cast_ofNat]
      have := (two_zpow_pos e₂).ne'
      have := (two_zpow_pos p).ne'
      field_simp
    rw [h]
    exact locates_quotient _ h₂
  · rw [targetExponent_eq, totalExponent]
    by_cases hmin : p ≤ -1074
    · omega
    · -- The dividend is made so long that the quotient has all its bits.
      have hlog : 52 + (m₂.log2 + 1) ≤ m₁.log2 + k := by omega
      have hn : 2 ^ 52 ≤ (m₁ <<< k) / m₂ := by
        rw [Nat.le_div_iff_mul_le h₂, Nat.shiftLeft_eq]
        calc 2 ^ 52 * m₂ ≤ 2 ^ 52 * 2 ^ (m₂.log2 + 1) :=
              Nat.mul_le_mul_left _ Nat.lt_log2_self.le
          _ = 2 ^ (52 + (m₂.log2 + 1)) := (Nat.pow_add ..).symm
          _ ≤ 2 ^ (m₁.log2 + k) := Nat.pow_le_pow_right two_pos hlog
          _ = 2 ^ m₁.log2 * 2 ^ k := Nat.pow_add ..
          _ ≤ m₁ * 2 ^ k := Nat.mul_le_mul_right _ (Nat.log2_self_le h₁.ne')
      have := (Nat.le_log2 (by omega)).mpr hn
      omega

/-! ## Decimals -/

theorem RoundsTo.range {r : ℚ} (hc : Canonical m q) (h : RoundsTo m q r) :
    (2 : ℚ) ^ (-1075 : Int) ≤ r ∧ r < 2 ^ (1024 : Int) := by
  have hq := two_zpow_pos q
  constructor
  · have hm : (1 : ℚ) ≤ m := by exact_mod_cast hc.pos
    calc (2 : ℚ) ^ (-1075 : Int) = 1 / 2 * 2 ^ (-1074 : Int) := by
          rw [show (-1075 : Int) = -1074 - 1 from rfl, zpow_sub_one₀ two_ne_zero]
          ring
      _ ≤ (m - 1 / 2) * 2 ^ q := by
          have := zpow_le_zpow_right₀ one_le_two hc.low (a := (2 : ℚ))
          exact mul_le_mul (by linarith) this (two_zpow_pos _).le (by linarith)
      _ ≤ r := h.low
  · have hm : (m : ℚ) + 1 ≤ 2 ^ 53 := by exact_mod_cast hc.lt
    calc r ≤ (m + 1 / 2) * 2 ^ q := h.high
      _ < 2 ^ 53 * 2 ^ q := mul_lt_mul_of_pos_right (by linarith) hq
      _ = 2 ^ (53 + q) := two_pow_mul_zpow 53 q
      _ ≤ 2 ^ (1024 : Int) := zpow_le_zpow_right₀ one_le_two (by have := hc.high; omega)

theorem two_zpow_le_ten_zpow {e : Int} (he : 0 ≤ e) : (2 : ℚ) ^ e ≤ 10 ^ e :=
  zpow_le_zpow_left₀ he (by norm_num) (by norm_num)

theorem ten_zpow_of_nonneg {e : Int} (he : 0 ≤ e) : (10 : ℚ) ^ e = (10 ^ e.toNat : Nat) := by
  conv_lhs => rw [← Int.toNat_of_nonneg he]
  rw [zpow_natCast, Nat.cast_pow, Nat.cast_ofNat]

section Decimal

variable {d : Nat} {e : Int}

theorem RoundsTo.digits_ne_zero (hc : Canonical m q) (h : RoundsTo m q (d * 10 ^ e)) : d ≠ 0 := by
  rintro rfl
  have hlow := (h.range hc).1
  rw [Nat.cast_zero, zero_mul] at hlow
  exact absurd hlow (not_le.mpr (two_zpow_pos _))

theorem RoundsTo.exponent_le (hc : Canonical m q) (h : RoundsTo m q (d * 10 ^ e)) : e ≤ 2048 := by
  by_contra he
  have hd : (1 : ℚ) ≤ d := by exact_mod_cast Nat.one_le_iff_ne_zero.mpr (h.digits_ne_zero hc)
  apply (h.range hc).2.not_ge
  calc (2 : ℚ) ^ (1024 : Int) ≤ 2 ^ e := zpow_le_zpow_right₀ one_le_two (by omega)
    _ ≤ 10 ^ e := two_zpow_le_ten_zpow (by omega)
    _ ≤ d * 10 ^ e := le_mul_of_one_le_left (zpow_pos (by norm_num) e).le hd

theorem RoundsTo.le_exponent (hc : Canonical m q) (h : RoundsTo m q (d * 10 ^ e)) :
    -(2048 + (d.log2 : Int)) ≤ e := by
  by_contra he
  have h10 : (10 : ℚ) ^ e ≤ 2 ^ e := by
    have h := two_zpow_le_ten_zpow (e := -e) (by omega)
    rw [zpow_neg, zpow_neg] at h
    exact (inv_le_inv₀ (two_zpow_pos e) (zpow_pos (by norm_num) e)).mp h
  have hd : (d : ℚ) < 2 ^ (d.log2 + 1) := by exact_mod_cast Nat.lt_log2_self
  apply (h.range hc).1.not_gt
  calc (d : ℚ) * 10 ^ e ≤ d * 2 ^ e := mul_le_mul_of_nonneg_left h10 d.cast_nonneg
    _ < 2 ^ (d.log2 + 1) * 2 ^ e := mul_lt_mul_of_pos_right hd (two_zpow_pos e)
    _ = 2 ^ (((d.log2 + 1 : Nat) : Int) + e) := two_pow_mul_zpow _ e
    _ ≤ 2 ^ (-1075 : Int) := zpow_le_zpow_right₀ one_le_two (by push_cast; omega)

theorem unpackedOfScientific_eq (hc : Canonical m q) (hr : RoundsTo m q (d * 10 ^ e)) :
    UnpackedFloat.ofScientific .binary64 d e = .finite .positive m q hc.pos := by
  have hd : d ≠ 0 := hr.digits_ne_zero hc
  have hlarge : ¬ e > 2 ^ Format.binary64.exponentBits := (hr.exponent_le hc).not_gt
  have hsmall : ¬ e < -((2 ^ Format.binary64.exponentBits : Int) + d.log2) :=
    (hr.le_exponent hc).not_gt
  unfold UnpackedFloat.ofScientific
  rw [dif_neg hd, if_neg hlarge, if_neg hsmall]
  split_ifs with he
  · rw [ten_zpow_of_nonneg he] at hr
    refine mul_eq hc ?_ ?_
    · have h : ((d <<< 53 : Nat) : ℚ) * 2 ^ (-53 : Int) * ((10 ^ e.toNat : Nat) * 2 ^ (0 : Int)) =
          d * (10 ^ e.toNat : Nat) := by
        rw [Nat.shiftLeft_eq]
        push_cast
        norm_num
        ring
      rw [← h] at hr
      exact hr
    · have hten : 1 ≤ 10 ^ e.toNat := Nat.one_le_pow _ _ (by decide)
      have hlong : 1 * 2 ^ 53 ≤ d * 2 ^ 53 := Nat.mul_le_mul_right _ (Nat.pos_of_ne_zero hd)
      show 2 ^ 52 ≤ (d <<< 53) * 10 ^ e.toNat
      rw [Nat.shiftLeft_eq]
      exact le_trans (by decide) (Nat.mul_le_mul hlong hten)
  · refine div_eq hc ?_
    have h : (d : ℚ) * 2 ^ (0 : Int) / ((10 ^ (-e).toNat : Nat) * 2 ^ (0 : Int)) = d * 10 ^ e := by
      rw [← ten_zpow_of_nonneg (by omega), zpow_zero, mul_one, mul_one, zpow_neg, div_inv_eq_mul]
    rwa [h]

end Decimal

/-! ## Whole numbers and powers of ten -/

theorem roundsTo_self (m : Nat) (q : Int) : RoundsTo m q (m * 2 ^ q) := by
  have hq := two_zpow_pos q
  refine ⟨?_, ?_, fun _ => ⟨?_, ?_⟩, fun _ _ => ?_⟩ <;> linarith

theorem canonical_shiftLeft {n : Nat} (h0 : n ≠ 0) (h : n < 2 ^ 53) :
    Canonical (n <<< (52 - n.log2)) (-(52 - n.log2 : Nat)) := by
  have hlog : n.log2 < 53 := (Nat.log2_lt h0).mpr h
  generalize hk : 52 - n.log2 = k
  have hpow : 2 ^ n.log2 * 2 ^ k = 2 ^ 52 := by
    rw [← Nat.pow_add]
    congr 1
    omega
  rw [Nat.shiftLeft_eq]
  have hlow : 2 ^ 52 ≤ n * 2 ^ k := hpow ▸ Nat.mul_le_mul_right _ (Nat.log2_self_le h0)
  have hhigh : n * 2 ^ k < 2 ^ (n.log2 + 1) * 2 ^ k :=
    Nat.mul_lt_mul_of_pos_right Nat.lt_log2_self (Nat.two_pow_pos k)
  rw [Nat.pow_succ, Nat.mul_right_comm, hpow] at hhigh
  exact ⟨by omega, by omega, by omega, by omega, by omega⟩

theorem ofUInt64_eq {n : Nat} (h0 : n ≠ 0) (h : n < 2 ^ 53) :
    UnpackedFloat.ofUInt64 .binary64 n.toUInt64 =
      .finite .positive (n <<< (52 - n.log2)) (-(52 - n.log2 : Nat))
        (canonical_shiftLeft h0 h).pos := by
  have hc := canonical_shiftLeft h0 h
  have hlog : n.log2 < 53 := (Nat.log2_lt h0).mpr h
  have hn : n.toUInt64.toNat = n := by
    rw [Nat.toUInt64_eq, UInt64.toNat_ofNat']
    omega
  have hgt : compare (n : Int) 0 = .gt := compare_gt_iff_gt.mpr (by omega)
  have htarget : Format.binary64.targetExponent (totalExponent n 0) = -(52 - n.log2 : Nat) := by
    rw [targetExponent_eq, totalExponent]
    omega
  unfold UnpackedFloat.ofUInt64 UnpackedFloat.ofNat UnpackedFloat.ofInt UnpackedFloat.normalize
  simp only [hn, hgt, UnpackedFloat.round, htarget, decreaseExponent, Int.toNat_natCast,
    zero_sub, neg_neg]
  refine roundWithAccuracy_eq hc (roundsTo_self _ _) ?_ hc.targetExponent_eq.ge
  rw [mul_div_cancel_right₀ _ (two_zpow_pos _).ne']
  exact locates_exact _

theorem unpack_toFloat {n : Nat} (h0 : n ≠ 0) (h : n < 2 ^ 53) :
    ∃ m e hm, n.toUInt64.toFloat.toModel.unpack = .finite .positive m e hm ∧
      2 ^ 52 ≤ m ∧ (m * 2 ^ e : ℚ) = n := by
  have hc := canonical_shiftLeft h0 h
  refine ⟨_, -(52 - n.log2 : Nat), hc.pos, ?_, ?_, ?_⟩
  · show UnpackedFloat.unpack .binary64 (UnpackedFloat.pack .binary64
      (UnpackedFloat.ofUInt64 .binary64 n.toUInt64)) = _
    rw [ofUInt64_eq h0 h]
    exact unpack_pack_finite _ hc
  · by_contra hm
    have := hc.full (by omega)
    omega
  · rw [Nat.shiftLeft_eq, zpow_neg, zpow_natCast]
    push_cast
    field_simp

theorem unpack_powerOfTen {k : Nat} (h : k < Float.exactlyRepresentablePowersOfTen.size) :
    ∃ m e hm, Float.exactlyRepresentablePowersOfTen[k].toModel.unpack = .finite .positive m e hm ∧
      2 ^ 52 ≤ m ∧ (m * 2 ^ e : ℚ) = 10 ^ k := by
  have hall : ∀ i : Fin 23, ∃ d,
      Dyadic.ofFloat? (Float.exactlyRepresentablePowersOfTen[i]) = some d ∧ d.negative = false ∧
        2 ^ 52 ≤ d.significand ∧ -52 ≤ d.exponent ∧
        d.significand * 2 ^ (d.exponent + 52).toNat = 10 ^ i.val * 2 ^ 52 := by
    decide +kernel
  obtain ⟨⟨negative, m, e⟩, hd, rfl, hm, he, hval⟩ := hall ⟨k, h⟩
  dsimp only at hm he hval
  rw [ofFloat?_eq_dyadic?] at hd
  refine ⟨m, e, by omega, eq_finite_of_dyadic? (by omega) hd, hm, ?_⟩
  have hval : (m * 2 ^ (e + 52).toNat : ℚ) = 10 ^ k * 2 ^ 52 := by exact_mod_cast hval
  rw [← zpow_natCast, Int.toNat_of_nonneg (by omega), zpow_add₀ two_ne_zero, ← mul_assoc] at hval
  exact mul_right_cancel₀ (by norm_num) hval

/-- A decimal that rounds to a double is read as that double. -/
theorem unpack_ofScientific {d : Nat} {e : Int} (hc : Canonical m q)
    (hr : RoundsTo m q (d * 10 ^ e)) :
    (Float.ofScientific d (e < 0) e.natAbs).toModel.unpack = .finite .positive m q hc.pos := by
  suffices h : (Float.ofScientific d (e < 0) e.natAbs).toModel =
      Float.Model.pack (.finite .positive m q hc.pos) by
    rw [h]
    exact unpack_pack_finite _ hc
  have hd : d ≠ 0 := hr.digits_ne_zero hc
  have hsize (h : e.natAbs ≤ 22) : e.natAbs < Float.exactlyRepresentablePowersOfTen.size :=
    lt_of_le_of_lt h (by decide)
  unfold Float.ofScientific
  by_cases he : e < 0 <;>
    simp only [he, decide_true, decide_false, if_true, Bool.false_eq_true, if_false] <;>
    split_ifs with hfast
  · -- Digits and power are doubles, and the decimal is their quotient.
    have hk := hsize hfast.2
    obtain ⟨m₁, e₁, h₁, hu₁, -, hv₁⟩ := unpack_toFloat hd hfast.1
    obtain ⟨m₂, e₂, h₂, hu₂, -, hv₂⟩ := unpack_powerOfTen hk
    show Float.Model.pack (UnpackedFloat.div .binary64 d.toUInt64.toFloat.toModel.unpack
      Float.exactlyRepresentablePowersOfTen[e.natAbs].toModel.unpack) = _
    rw [hu₁, hu₂, div_eq hc]
    · rfl
    · rw [Int.eq_neg_natAbs_of_nonpos he.le, zpow_neg, zpow_natCast, ← div_eq_mul_inv] at hr
      rw [hv₁, hv₂]
      exact hr
  · show Float.Model.pack (UnpackedFloat.ofScientific .binary64 d (Int.negOfNat e.natAbs)) = _
    have hneg : Int.negOfNat e.natAbs = e := by
      rw [Int.negOfNat_eq, Int.ofNat_eq_natCast]
      omega
    rw [hneg, unpackedOfScientific_eq hc hr]
  · have hk := hsize hfast.2
    obtain ⟨m₁, e₁, h₁, hu₁, hb₁, hv₁⟩ := unpack_toFloat hd hfast.1
    obtain ⟨m₂, e₂, h₂, hu₂, -, hv₂⟩ := unpack_powerOfTen hk
    show Float.Model.pack (UnpackedFloat.mul .binary64 d.toUInt64.toFloat.toModel.unpack
      Float.exactlyRepresentablePowersOfTen[e.natAbs].toModel.unpack) = _
    rw [hu₁, hu₂, mul_eq hc]
    · rfl
    · rw [← Int.natAbs_of_nonneg (not_lt.mp he), zpow_natCast] at hr
      rw [hv₁, hv₂]
      exact hr
    · exact hb₁.trans (Nat.le_mul_of_pos_right _ h₂)
  · show Float.Model.pack (UnpackedFloat.ofScientific .binary64 d (Int.ofNat e.natAbs)) = _
    have hpos : Int.ofNat e.natAbs = e := Int.natAbs_of_nonneg (not_lt.mp he)
    rw [hpos, unpackedOfScientific_eq hc hr]

end Nabla.Double
