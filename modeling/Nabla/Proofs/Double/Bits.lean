import Mathlib
import Nabla.Decimal.Dyadic

/-!
# The bits of a double

A double is a sign, an exponent and a mantissa side by side. Arithmetic takes these parts out and puts
those of the result back; here it is shown that nothing is lost on the way, also when the sign
changes in between.
-/

open Float.Model
open Float.Model.UnpackedFloat hiding unpack pack

namespace Nabla.Double

/-! ## The parts as numbers -/

abbrev Bits := BitVec Format.binary64.numBits

theorem toNat_append {v w : Nat} (a : BitVec v) (b : BitVec w) :
    (a ++ b).toNat = a.toNat * 2 ^ w + b.toNat := by
  rw [BitVec.toNat_append, ← Nat.shiftLeft_add_eq_or_of_lt b.isLt, Nat.shiftLeft_eq]

theorem toNat_mantissa (b : Bits) : (unpackMantissa b).toNat = b.toNat % 2 ^ 52 := by
  simp [unpackMantissa]

theorem toNat_exponent (b : Bits) : (unpackExponent b).toNat = b.toNat / 2 ^ 52 % 2 ^ 11 := by
  simp [unpackExponent, Nat.shiftRight_eq_div_pow]

theorem toNat_sign (b : Bits) : (unpackSign b).toNat = b.toNat / 2 ^ 63 := by
  have : b.toNat < 2 ^ 64 := b.isLt
  simp [unpackSign, Nat.shiftRight_eq_div_pow]
  omega

theorem toNat_packComponents (s : Sign) (e : BitVec 11) (m : BitVec 52) :
    (packComponents .binary64 s e m).toNat =
      s.toBitVec.toNat * 2 ^ 63 + e.toNat * 2 ^ 52 + m.toNat := by
  unfold packComponents
  rw [toNat_append, toNat_append]
  show (s.toBitVec.toNat * 2 ^ 11 + e.toNat) * 2 ^ 52 + m.toNat = _
  omega

theorem toBitVec_ofBitVec (v : BitVec 1) : (Sign.ofBitVec v).toBitVec = v := by
  revert v; decide

theorem ofBitVec_toBitVec (s : Sign) : Sign.ofBitVec s.toBitVec = s := by
  cases s <;> rfl

theorem unpackSign_packComponents (s : Sign) (e : BitVec 11) (m : BitVec 52) :
    unpackSign (packComponents .binary64 s e m) = s.toBitVec := by
  apply BitVec.eq_of_toNat_eq
  rw [toNat_sign, toNat_packComponents]
  have he : e.toNat < 2 ^ 11 := e.isLt
  have hm : m.toNat < 2 ^ 52 := m.isLt
  omega

theorem packComponents_parts (b : Bits) :
    packComponents .binary64 (Sign.ofBitVec (unpackSign b)) (unpackExponent b) (unpackMantissa b) =
      b := by
  apply BitVec.eq_of_toNat_eq
  rw [toNat_packComponents, toBitVec_ofBitVec, toNat_sign, toNat_exponent, toNat_mantissa]
  omega

/-! ## Taking the parts out and putting them back -/

/-- A number with another sign. The undefined value has none. -/
def resign (s : Sign) : UnpackedFloat → UnpackedFloat
  | .notANumber => .notANumber
  | .infinity _ => .infinity s
  | .zero _ => .zero s
  | .finite _ m e h => .finite s m e h

theorem unpack_packComponents (s t : Sign) (e : BitVec 11) (m : BitVec 52) :
    UnpackedFloat.unpack .binary64 (packComponents .binary64 s e m) =
      resign s (UnpackedFloat.unpack .binary64 (packComponents .binary64 t e m)) := by
  unfold UnpackedFloat.unpack
  simp only [unpackMantissa_packComponents, unpackExponent_packComponents,
    unpackSign_packComponents, ofBitVec_toBitVec]
  split_ifs <;> rfl

theorem bias_eq : Format.binary64.exponentBias = 1023 := rfl

theorem pack_normal (s : Sign) (e : BitVec 11) (m : BitVec 52) (h1 : e ≠ -1)
    (hp : 0 < (1#1 ++ m).toNat) (k : Int) (hk : k = e.toNat - (1023 + 52)) :
    UnpackedFloat.pack .binary64 (.finite s (1#1 ++ m).toNat k hp) =
      packComponents .binary64 s e m := by
  have hm : m.toNat < 2 ^ 52 := m.isLt
  have hn : (1#1 ++ m).toNat = 2 ^ 52 + m.toNat := by
    rw [toNat_append]; rfl
  have hlog : (1#1 ++ m).toNat.log2 = 52 := by
    rw [Nat.log2_eq_iff (by omega)]; omega
  have he : e.toNat < 2047 := by
    have hlt : e.toNat < 2048 := e.isLt
    have hne : e.toNat ≠ (-1 : BitVec 11).toNat := fun h => h1 (BitVec.eq_of_toNat_eq h)
    have : (-1 : BitVec 11).toNat = 2047 := rfl
    omega
  have hb : (k + (1023 : Nat) + (52 : Nat)).toNat = e.toNat := by omega
  unfold UnpackedFloat.pack
  simp only [bias_eq, hb, hlog]
  rw [if_neg (by omega), if_pos (by decide), BitVec.ofNat_toNat, BitVec.setWidth_eq]
  congr 1
  apply BitVec.eq_of_toNat_eq
  rw [BitVec.toNat_ofNat, hn]
  omega

theorem pack_subnormal (s : Sign) (m : BitVec 52) (hp : 0 < m.toNat) (k : Int) (hk : k = -1074) :
    UnpackedFloat.pack .binary64 (.finite s m.toNat k hp) = packComponents .binary64 s 0 m := by
  have hm : m.toNat < 2 ^ 52 := m.isLt
  have hlog : m.toNat.log2 < 52 := (Nat.log2_lt (by omega)).mpr hm
  have hb : (k + (1023 : Nat) + (52 : Nat)).toNat = 1 := by omega
  have hbits : Format.binary64.mantissaBits = 53 := rfl
  unfold UnpackedFloat.pack
  simp only [bias_eq, hb]
  rw [if_neg (by decide), if_neg (by omega), BitVec.ofNat_toNat, BitVec.setWidth_eq]
  rfl

theorem pack_resign (b : Bits) (s : Sign)
    (h : UnpackedFloat.unpack .binary64 b ≠ .notANumber) :
    UnpackedFloat.pack .binary64 (resign s (UnpackedFloat.unpack .binary64 b)) =
      packComponents .binary64 s (unpackExponent b) (unpackMantissa b) := by
  unfold UnpackedFloat.unpack at h ⊢
  simp only [bias_eq] at h ⊢
  split_ifs at h ⊢ with h1 h2 h3 h4
  · rw [h1, h2]; rfl
  · exact absurd rfl h
  · rw [h3, h4]; rfl
  · rw [h3]
    exact pack_subnormal s _ _ _ (by decide)
  · exact pack_normal s _ _ h1 _ _ rfl

theorem resign_self (b : Bits) :
    resign (Sign.ofBitVec (unpackSign b)) (UnpackedFloat.unpack .binary64 b) =
      UnpackedFloat.unpack .binary64 b := by
  unfold UnpackedFloat.unpack
  simp only
  split_ifs <;> rfl

theorem parts_of_unpack_nan (b : Bits) (h : UnpackedFloat.unpack .binary64 b = .notANumber) :
    unpackExponent b = -1 ∧ unpackMantissa b ≠ 0 := by
  unfold UnpackedFloat.unpack at h
  simp only at h
  split_ifs at h with h1 h2
  exact ⟨h1, h2⟩

theorem unpack_packedNaN : UnpackedFloat.unpack .binary64 (packedNaN .binary64) = .notANumber := by
  unfold UnpackedFloat.unpack packedNaN
  simp only [unpackMantissa_packComponents, unpackExponent_packComponents]
  rw [if_pos trivial, if_neg (by decide)]

theorem pack_unpack (x : Float.Model) : Float.Model.pack x.unpack = x := by
  obtain ⟨bits, valid⟩ := x
  unfold Float.Model.pack Float.Model.unpack
  congr 1
  apply UInt64.toBitVec_inj.mp
  show UnpackedFloat.pack .binary64 (UnpackedFloat.unpack .binary64 bits.toBitVec) = bits.toBitVec
  by_cases h : UnpackedFloat.unpack .binary64 bits.toBitVec = .notANumber
  · obtain ⟨he, hm⟩ := parts_of_unpack_nan _ h
    rw [h]
    exact (valid.eq_packedNaN he hm).symm
  · rw [← resign_self, pack_resign _ _ h]
    exact packComponents_parts _

theorem unpack_pack_resign (b : Bits) (s : Sign) :
    UnpackedFloat.unpack .binary64 (UnpackedFloat.pack .binary64
      (resign s (UnpackedFloat.unpack .binary64 b))) =
      resign s (UnpackedFloat.unpack .binary64 b) := by
  by_cases h : UnpackedFloat.unpack .binary64 b = .notANumber
  · rw [h]
    exact unpack_packedNaN
  · rw [pack_resign b s h, unpack_packComponents s (Sign.ofBitVec (unpackSign b))]
    congr 2
    exact packComponents_parts b

theorem exists_neg_eq_resign (u : UnpackedFloat) : ∃ s, u.neg = resign s u := by
  cases u with
  | notANumber => exact ⟨.positive, rfl⟩
  | infinity s => exact ⟨-s, rfl⟩
  | zero s => exact ⟨-s, rfl⟩
  | finite s m e h => exact ⟨-s, rfl⟩

theorem unpack_neg (x : Float) : (-x).toModel.unpack = x.toModel.unpack.neg := by
  obtain ⟨s, hs⟩ := exists_neg_eq_resign x.toModel.unpack
  have h : (-x).toModel.unpack =
      UnpackedFloat.unpack .binary64 (UnpackedFloat.pack .binary64 x.toModel.unpack.neg) := rfl
  rw [h, hs]
  exact unpack_pack_resign _ s

/-! ## The exact value -/

def isNegative : Sign → Bool
  | .negative => true
  | .positive => false

/-- The exact value of an unpacked number. -/
def dyadic? : UnpackedFloat → Option Dyadic
  | .zero s => some ⟨isNegative s, 0, -1074⟩
  | .finite s m e _ => some ⟨isNegative s, m, e⟩
  | .infinity _ | .notANumber => none

theorem isNegative_ofBitVec (v : BitVec 1) : isNegative (Sign.ofBitVec v) = (v.toNat == 1) := by
  revert v; decide

theorem dyadic?_unpack (b : Bits) :
    dyadic? (UnpackedFloat.unpack .binary64 b) =
      if (unpackExponent b).toNat = 2047 then none
      else if (unpackExponent b).toNat = 0 then
        some ⟨isNegative (Sign.ofBitVec (unpackSign b)), (unpackMantissa b).toNat, -1074⟩
      else
        some ⟨isNegative (Sign.ofBitVec (unpackSign b)), 2 ^ 52 + (unpackMantissa b).toNat,
          (unpackExponent b).toNat - 1075⟩ := by
  unfold UnpackedFloat.unpack
  simp only [bias_eq]
  by_cases h1 : unpackExponent b = -1#11
  · rw [if_pos h1, h1, if_pos (show (-1#11).toNat = 2047 from rfl)]
    split_ifs <;> rfl
  · have hne : (unpackExponent b).toNat ≠ 2047 := fun h => h1 (BitVec.eq_of_toNat_eq h)
    rw [if_neg h1, if_neg hne]
    by_cases h0 : unpackExponent b = 0#11
    · rw [if_pos h0, h0]
      by_cases h2 : unpackMantissa b = 0#52
      · rw [dif_pos h2, h2]; rfl
      · rw [dif_neg h2]; rfl
    · have hne0 : (unpackExponent b).toNat ≠ 0 := fun h => h0 (BitVec.eq_of_toNat_eq h)
      have hm : (1#1 ++ unpackMantissa b).toNat = 2 ^ 52 + (unpackMantissa b).toNat := by
        rw [toNat_append]; rfl
      rw [if_neg h0, if_neg hne0, ← hm]
      rfl

theorem ofFloat?_eq_dyadic? (x : Float) : Dyadic.ofFloat? x = dyadic? x.toModel.unpack := by
  have hbits : x.toBits.toNat = x.toModel.toBits.toBitVec.toNat := rfl
  unfold Dyadic.ofFloat? Float.Model.unpack
  rw [dyadic?_unpack, isNegative_ofBitVec, toNat_mantissa, toNat_exponent, toNat_sign]
  simp only [hbits, Dyadic.twoTo, Nat.pow_eq, beq_iff_eq]

end Nabla.Double
