import Mathlib.Algebra.Order.Field.Power
import Mathlib.Tactic.Linarith
import Mathlib.Tactic.NormNum
import Mathlib.Tactic.Ring
import Nabla.Proofs.Double.Bits

/-!
# Rounding to the nearest double

A number is rounded by cutting it off at a place and keeping two bits of what was behind. Those bits
tell on which side of the middle it lies, so the nearest double is found, and of two that are as near
the even one.
-/

open Float.Model
open Float.Model.UnpackedFloat hiding unpack pack

namespace Nabla.Double

/-! ## Where a number lies -/

/-- What the first bit behind a whole number stands for. -/
def half : Bool → ℚ
  | true => 1 / 2
  | false => 0

/-- The number `t` lies where the whole number and the two bits behind it say: the second one tells
whether anything is left behind the first. -/
def Locates (em : ExtendedMantissa) (t : ℚ) : Prop :=
  ∃ u, t = em.mantissa + half em.roundBit + u ∧ 0 ≤ u ∧ u < 1 / 2 ∧ (em.stickyBit = true ↔ 0 < u)

/-- The whole number `k` is the one nearest to `t`, or one of two and even. -/
structure Nearest (k : Nat) (t : ℚ) : Prop where
  low : (k : ℚ) - 1 / 2 ≤ t
  high : t ≤ k + 1 / 2
  odd : k % 2 = 1 → (k : ℚ) - 1 / 2 < t ∧ t < k + 1 / 2

variable {em : ExtendedMantissa} {t : ℚ}

theorem half_bounds (b : Bool) : 0 ≤ half b ∧ half b ≤ 1 / 2 := by
  cases b <;> norm_num [half]

theorem Locates.bounds (h : Locates em t) : (em.mantissa : ℚ) ≤ t ∧ t < em.mantissa + 1 := by
  obtain ⟨u, rfl, h0, h1, -⟩ := h
  obtain ⟨hb0, hb1⟩ := half_bounds em.roundBit
  constructor <;> linarith

theorem Locates.shiftRightOne (h : Locates em t) : Locates em.shiftRightOne (t / 2) := by
  obtain ⟨u, rfl, h0, h1, hs⟩ := h
  obtain ⟨hb0, hb1⟩ := half_bounds em.roundBit
  have hn : (em.mantissa : ℚ) = 2 * (em.mantissa / 2 : Nat) + (em.mantissa % 2 : Nat) := by
    exact_mod_cast (Nat.div_add_mod em.mantissa 2).symm
  have hr : half (em.mantissa % 2 != 0) = ((em.mantissa % 2 : Nat) : ℚ) / 2 := by
    rcases Nat.mod_two_eq_zero_or_one em.mantissa with h | h <;> rw [h]
    · exact (zero_div 2).symm
    · exact congrArg (· / 2) Nat.cast_one.symm
  refine ⟨(half em.roundBit + u) / 2, ?_, by linarith, by linarith, ?_⟩
  · show (em.mantissa + half em.roundBit + u) / 2 =
      ((em.mantissa / 2 : Nat) : ℚ) + half (em.mantissa % 2 != 0) + _
    rw [hr]
    linarith
  · show (em.roundBit || em.stickyBit) = true ↔ _
    rw [Bool.or_eq_true, hs]
    cases em.roundBit with
    | false =>
      simp only [half, Bool.false_eq_true, false_or, zero_add]
      constructor <;> intro h <;> linarith
    | true =>
      simp only [half, true_or, true_iff]
      linarith

theorem Locates.shiftRight (h : Locates em t) (n : Nat) : Locates (em >>> n) (t / 2 ^ n) := by
  show Locates (n.repeat ExtendedMantissa.shiftRightOne em) _
  induction n with
  | zero => simpa [Nat.repeat] using h
  | succ n ih =>
    rw [Nat.repeat, pow_succ, ← div_div]
    exact ih.shiftRightOne

theorem Locates.roundedMantissa_eq {k : Nat} (h : Locates em t) (hk : Nearest k t) :
    em.roundedMantissa = k := by
  obtain ⟨hlow, hhigh, hodd⟩ := hk
  obtain ⟨n, round, sticky⟩ := em
  obtain ⟨u, rfl, h0, h1, hs⟩ := h
  cases round with
  | false =>
    simp only [half] at hlow hhigh
    have h₁ : (k : ℚ) < n + 1 := by linarith
    have h₂ : (n : ℚ) < k + 1 := by linarith
    have heq : n = k := by
      norm_cast at h₁ h₂
      omega
    cases sticky <;> exact heq
  | true =>
    simp only [half] at hlow hhigh hodd
    cases sticky with
    | false =>
      -- A tie: both neighbours are as near, and an odd one would have to be nearer.
      have hu : u = 0 := le_antisymm (not_lt.mp fun h => Bool.false_ne_true (hs.mpr h)) h0
      have h₁ : (k : ℚ) ≤ n + 1 := by linarith
      have h₂ : (n : ℚ) ≤ k := by linarith
      have h₃ : k % 2 = 1 → (k : ℚ) < n + 1 ∧ (n : ℚ) < k := fun h => by
        obtain ⟨ho₁, ho₂⟩ := hodd h
        constructor <;> linarith
      show n + n % 2 = k
      norm_cast at h₁ h₂ h₃
      omega
    | true =>
      have hu : 0 < u := hs.mp rfl
      have h₁ : (k : ℚ) < n + 2 := by linarith
      have h₂ : (n : ℚ) < k := by linarith
      show n + 1 = k
      norm_cast at h₁ h₂
      omega

/-! ## Canonical numbers -/

/-- The significands and exponents of the finite doubles other than zero. -/
structure Canonical (m : Nat) (q : Int) : Prop where
  pos : 0 < m
  lt : m < 2 ^ 53
  low : -1074 ≤ q
  high : q ≤ 971
  full : m < 2 ^ 52 → q = -1074

theorem targetExponent_eq (e : Int) : Format.binary64.targetExponent e = max (e - 53) (-1074) := rfl

variable {m : Nat} {q : Int}

theorem Canonical.targetExponent_eq (h : Canonical m q) :
    Format.binary64.targetExponent (totalExponent m q) = q := by
  obtain ⟨hpos, hlt, hlow, -, hfull⟩ := h
  have hlog : m.log2 < 53 := (Nat.log2_lt hpos.ne').mpr hlt
  rw [Double.targetExponent_eq, totalExponent]
  by_cases hm : m < 2 ^ 52
  · have := hfull hm
    omega
  · have : 52 ≤ m.log2 := (Nat.le_log2 hpos.ne').mpr (by omega)
    omega

theorem shiftToTargetExponent_eq {n : Nat} {e : Int} {k : Nat}
    (h : Format.binary64.targetExponent (totalExponent n e) = e + k) (acc : Accuracy) :
    shiftToTargetExponent .binary64 n e acc =
      (ExtendedMantissa.ofMantissaAndAccuracy n acc >>> k, e + k) := by
  have hk : (e + k - e).toNat = k := by omega
  unfold shiftToTargetExponent shiftToExponent
  simp only [h, hk]

/-- The numbers that round to a double: those in its half of the gaps beside it. The ends belong
to even numbers, and the lower gap is narrower where the spacing changes. -/
structure RoundsTo (m : Nat) (q : Int) (r : ℚ) : Prop where
  low : ((m : ℚ) - 1 / 2) * 2 ^ q ≤ r
  high : r ≤ ((m : ℚ) + 1 / 2) * 2 ^ q
  odd : m % 2 = 1 → ((m : ℚ) - 1 / 2) * 2 ^ q < r ∧ r < ((m : ℚ) + 1 / 2) * 2 ^ q
  edge : m = 2 ^ 52 → -1074 < q → ((m : ℚ) - 1 / 4) * 2 ^ q ≤ r

theorem two_zpow_pos (e : Int) : (0 : ℚ) < 2 ^ e := zpow_pos two_pos e

theorem RoundsTo.nearest {r : ℚ} (h : RoundsTo m q r) : Nearest m (r / 2 ^ q) := by
  have hq := two_zpow_pos q
  exact ⟨(le_div_iff₀ hq).mpr h.low, (div_le_iff₀ hq).mpr h.high, fun ho =>
    ⟨(lt_div_iff₀ hq).mpr (h.odd ho).1, (div_lt_iff₀ hq).mpr (h.odd ho).2⟩⟩

theorem two_mul_zpow_le {p q : Int} (h : p < q) : (2 : ℚ) * 2 ^ p ≤ 2 ^ q := by
  rw [← zpow_one_add₀ two_ne_zero]
  exact zpow_le_zpow_right₀ one_le_two (by omega)

theorem RoundsTo.exponent_cases {r : ℚ} {p : Int} (hc : Canonical m q) (h : RoundsTo m q r)
    (hlow : -1074 ≤ p) (hlt : r < 2 ^ 53 * 2 ^ p) (hfull : p = -1074 ∨ 2 ^ 52 * 2 ^ p ≤ r) :
    p = q ∨ p = q - 1 ∧ m = 2 ^ 52 ∧ -1074 < q := by
  have hq := two_zpow_pos q
  have hp := two_zpow_pos p
  have hqlow := hc.low
  rcases lt_trichotomy p q with hpq | heq | hqp
  · -- The number is below those with exponent `q`, so it is at the lower edge of the first of them.
    have hstep : (2 : ℚ) * 2 ^ p ≤ 2 ^ q := two_mul_zpow_le hpq
    have hmlow : 2 ^ 52 ≤ m := by
      by_contra hm
      have := hc.full (by omega)
      omega
    have hm : (m : ℚ) - 1 / 2 < 2 ^ 52 := by
      have := h.low
      exact lt_of_mul_lt_mul_right (by linarith) hq.le
    have hm : m = 2 ^ 52 := by
      have : (m : ℚ) < 2 ^ 52 + 1 := by linarith
      norm_cast at this
      omega
    refine Or.inr ⟨?_, hm, by omega⟩
    by_contra hp1
    have hstep : (2 : ℚ) * 2 ^ (p + 1) ≤ 2 ^ q := two_mul_zpow_le (by omega)
    rw [zpow_add_one₀ two_ne_zero] at hstep
    have hedge := h.edge hm (by omega)
    rw [hm] at hedge
    push_cast at hedge
    linarith
  · exact Or.inl heq
  · exfalso
    have hstep : (2 : ℚ) * 2 ^ q ≤ 2 ^ p := two_mul_zpow_le hqp
    have hbig := hfull.resolve_left (by omega)
    have hm : (m : ℚ) + 1 ≤ 2 ^ 53 := by exact_mod_cast hc.lt
    have hhigh : r < 2 ^ 53 * 2 ^ q :=
      h.high.trans_lt (mul_lt_mul_of_pos_right (by linarith) hq)
    linarith

/-! ## Rounding -/

theorem div_zpow_add (r : ℚ) (e : Int) (k : Nat) : r / 2 ^ e / 2 ^ k = r / 2 ^ (e + k) := by
  rw [zpow_add₀ two_ne_zero, zpow_natCast, div_div]

theorem roundWithAccuracy_of_shifts {s : Sign} {n : Nat} {e p : Int} {acc : Accuracy}
    {em : ExtendedMantissa} (em' : ExtendedMantissa)
    (h : shiftToTargetExponent .binary64 n e acc = (em, p))
    (h' : shiftToTargetExponent .binary64 em.roundedMantissa p .exact = (em', q))
    (hm : em'.mantissa = m) (hpos : 0 < m) :
    roundWithAccuracy .binary64 s n e acc = .finite s m q hpos := by
  -- The second shift is for a number that rounding has made too long.
  subst hm
  unfold roundWithAccuracy
  simp only [h, h']
  rw [dif_neg hpos.ne']

theorem mantissa_ofMantissaAndAccuracy (n : Nat) (acc : Accuracy) :
    (ExtendedMantissa.ofMantissaAndAccuracy n acc).mantissa = n := by
  cases acc with
  | exact => rfl
  | inexact o => cases o <;> rfl

theorem Locates.leading {n : Nat} {e : Int} {acc : Accuracy} {r : ℚ}
    (h : Locates (.ofMantissaAndAccuracy n acc) (r / 2 ^ e)) :
    r < 2 ^ (n.log2 + 1) * 2 ^ e ∧ (n ≠ 0 → 2 ^ n.log2 * 2 ^ e ≤ r) := by
  have hp := two_zpow_pos e
  obtain ⟨hlow, hhigh⟩ := h.bounds
  rw [mantissa_ofMantissaAndAccuracy] at hlow hhigh
  rw [le_div_iff₀ hp] at hlow
  rw [div_lt_iff₀ hp] at hhigh
  constructor
  · have hn : (n : ℚ) + 1 ≤ 2 ^ (n.log2 + 1) := by exact_mod_cast Nat.lt_log2_self
    exact hhigh.trans_le (mul_le_mul_of_nonneg_right hn hp.le)
  · intro hn
    have hn : (2 ^ n.log2 : ℚ) ≤ n := by exact_mod_cast Nat.log2_self_le hn
    exact (mul_le_mul_of_nonneg_right hn hp.le).trans hlow

theorem two_pow_mul_zpow (k : Nat) (e : Int) : (2 : ℚ) ^ k * 2 ^ e = 2 ^ (k + e) := by
  rw [zpow_add₀ two_ne_zero, zpow_natCast]

/-- A number that rounds to a double is rounded to that double, if it is given with enough bits. -/
theorem roundWithAccuracy_eq {s : Sign} {n : Nat} {e : Int} {acc : Accuracy} {r : ℚ}
    (hc : Canonical m q) (hr : RoundsTo m q r)
    (hloc : Locates (.ofMantissaAndAccuracy n acc) (r / 2 ^ e))
    (he : e ≤ Format.binary64.targetExponent (totalExponent n e)) :
    roundWithAccuracy .binary64 s n e acc = .finite s m q hc.pos := by
  obtain ⟨k, hk⟩ := Int.le.dest he
  have hshift := shiftToTargetExponent_eq hk.symm acc
  have hloc' := hloc.shiftRight k
  rw [div_zpow_add] at hloc'
  obtain ⟨hlt, hle⟩ := hloc.leading
  rw [two_pow_mul_zpow] at hlt hle
  rw [targetExponent_eq, totalExponent] at hk
  have hlt : r < 2 ^ 53 * 2 ^ (e + k) := by
    rw [two_pow_mul_zpow]
    exact hlt.trans_le (zpow_le_zpow_right₀ one_le_two (by push_cast; omega))
  have hcases : e + k = q ∨ e + k = q - 1 ∧ m = 2 ^ 52 ∧ -1074 < q := by
    refine hr.exponent_cases hc (by omega) hlt ?_
    · by_cases hp : e + k = -1074
      · exact Or.inl hp
      · right
        have hn : n ≠ 0 := by
          rintro rfl
          simp only [Nat.log2_zero] at hk
          omega
        rw [two_pow_mul_zpow]
        exact (zpow_le_zpow_right₀ one_le_two (by push_cast; omega)).trans (hle hn)
  rcases hcases with heq | ⟨heq, rfl, hq⟩ <;> rw [heq] at hshift hloc' hlt
  · refine roundWithAccuracy_of_shifts ⟨m, false, false⟩ hshift ?_ rfl hc.pos
    rw [hloc'.roundedMantissa_eq hr.nearest, shiftToTargetExponent_eq (k := 0)]
    · rw [Nat.cast_zero, add_zero]
      rfl
    · rw [hc.targetExponent_eq, Nat.cast_zero, add_zero]
  · -- Rounding up to a power of two makes the significand one bit too long.
    have hnearest : Nearest (2 ^ 53) (r / 2 ^ (q - 1)) := by
      have hp := two_zpow_pos (q - 1)
      have hedge := hr.edge rfl hq
      rw [← sub_add_cancel q 1, zpow_add_one₀ two_ne_zero] at hedge
      push_cast at hedge
      refine ⟨?_, ?_, fun h => by norm_num at h⟩
      · rw [le_div_iff₀ hp]
        push_cast
        linarith
      · rw [div_le_iff₀ hp]
        push_cast
        linarith
    refine roundWithAccuracy_of_shifts ⟨2 ^ 52, false, false⟩ hshift ?_ rfl hc.pos
    rw [hloc'.roundedMantissa_eq hnearest, shiftToTargetExponent_eq (k := 1)]
    · rw [Nat.cast_one, sub_add_cancel]
      rfl
    · rw [targetExponent_eq, totalExponent, Nat.log2_two_pow]
      omega

end Nabla.Double
