import Nabla.Decimal.Reader
import Nabla.Decimal.Shortest
import Nabla.Proofs.Double.Real
import Nabla.Proofs.Double.Scientific

/-!
# The shortest decimal reads back

Of the grids that are searched, the last one is so fine that it meets the neighbourhood of every
double: seventeen digits suffice. Whatever decimal is found, or any other with the same value, rounds
to the double that it was found for.
-/

open Float.Model
open Float.Model.UnpackedFloat hiding unpack pack

namespace Nabla.Decimal

/-! ## Digits -/

theorem lt_pow_digitCount (n : Nat) : n < 10 ^ digitCount n :=
  (Nat.length_toDigits_le_iff (by decide) Nat.length_toDigits_pos).mp le_rfl

theorem pow_le_of_digitCount {n : Nat} (hn : n ≠ 0) : 10 ^ (digitCount n - 1) ≤ n := by
  by_contra h
  rcases Nat.eq_zero_or_pos (digitCount n - 1) with h0 | hpos
  · rw [h0] at h
    omega
  · have := (Nat.length_toDigits_le_iff (by decide) hpos).mpr (not_le.mp h)
    have : digitCount n ≤ digitCount n - 1 := this
    omega

theorem ten_zpow_pos (k : Int) : (0 : ℚ) < 10 ^ k := zpow_pos (by norm_num) k

/-! ## Comparing on a grid -/

theorem positivePower_eq {b : Nat} (hb : b ≠ 0) (e : Int) :
    (positivePower b e : ℚ) = b ^ e * positivePower b (-e) := by
  have hb : (b : ℚ) ≠ 0 := by exact_mod_cast hb
  simp only [positivePower, Nat.pow_eq, Nat.cast_pow, ← zpow_natCast]
  rw [← zpow_add₀ hb]
  congr 1
  omega

theorem positivePower_pos {b : Nat} (hb : b ≠ 0) (e : Int) : (0 : ℚ) < positivePower b e := by
  have : 0 < positivePower b e := Nat.pow_pos (Nat.pos_of_ne_zero hb)
  exact_mod_cast this

theorem exists_scale (u k : Int) :
    ∃ c : ℚ, 0 < c ∧ (decimalScale u k : ℚ) = c * 10 ^ k ∧ (binaryScale u k : ℚ) = c * 2 ^ u := by
  refine ⟨positivePower 10 (-k) * positivePower 2 (-u), ?_, ?_, ?_⟩
  · exact mul_pos (positivePower_pos (by decide) _) (positivePower_pos (by decide) _)
  · rw [decimalScale, Nat.cast_mul, positivePower_eq (b := 10) (by decide) k]
    push_cast
    ring
  · rw [binaryScale, Nat.cast_mul, positivePower_eq (b := 2) (by decide) u]
    push_cast
    ring

theorem binary_le_decimal {u k : Int} {x d : Nat} :
    x * binaryScale u k ≤ d * decimalScale u k ↔ (x * 2 ^ u : ℚ) ≤ d * 10 ^ k := by
  obtain ⟨c, hc, ha, hb⟩ := exists_scale u k
  have hcast : (x * binaryScale u k : ℚ) ≤ d * decimalScale u k ↔
      x * binaryScale u k ≤ d * decimalScale u k := by exact_mod_cast Iff.rfl
  rw [← hcast, ha, hb, mul_left_comm, mul_left_comm (d : ℚ), mul_le_mul_iff_right₀ hc]

theorem decimal_le_binary {u k : Int} {x d : Nat} :
    d * decimalScale u k ≤ x * binaryScale u k ↔ (d * 10 ^ k : ℚ) ≤ x * 2 ^ u := by
  obtain ⟨c, hc, ha, hb⟩ := exists_scale u k
  have hcast : (d * decimalScale u k : ℚ) ≤ x * binaryScale u k ↔
      d * decimalScale u k ≤ x * binaryScale u k := by exact_mod_cast Iff.rfl
  rw [← hcast, ha, hb, mul_left_comm, mul_left_comm (x : ℚ), mul_le_mul_iff_right₀ hc]

namespace Neighbourhood

variable {n : Neighbourhood} {k : Int} {d : Nat}

/-- The number lies in the neighbourhood. -/
def Holds (n : Neighbourhood) (r : ℚ) : Prop :=
  if n.closed then n.low * 2 ^ n.unit ≤ r ∧ r ≤ n.high * 2 ^ n.unit
  else n.low * 2 ^ n.unit < r ∧ r < n.high * 2 ^ n.unit

theorem contains_iff : n.contains k d = true ↔ n.Holds (d * 10 ^ k) := by
  unfold contains Holds
  split_ifs
  · rw [Bool.and_eq_true, decide_eq_true_iff, decide_eq_true_iff, binary_le_decimal,
      decimal_le_binary]
  · rw [Bool.and_eq_true, decide_eq_true_iff, decide_eq_true_iff, ← not_le, ← not_le,
      binary_le_decimal, decimal_le_binary, not_le, not_le]

theorem outside_of_not_holds {r : ℚ} (h : ¬ n.Holds r) :
    r ≤ n.low * 2 ^ n.unit ∨ n.high * 2 ^ n.unit ≤ r := by
  unfold Holds at h
  split_ifs at h
  · by_contra hr
    rw [not_or, not_le, not_le] at hr
    exact h ⟨hr.1.le, hr.2.le⟩
  · by_contra hr
    rw [not_or, not_le, not_le] at hr
    exact h hr

/-! ## The search -/

theorem holds_of_onGrid? (h : n.onGrid? k = some d) : n.Holds (d * 10 ^ k) := by
  rw [← contains_iff]
  unfold onGrid? at h
  dsimp only at h
  split at h
  · cases h
    split_ifs <;> assumption
  · cases h
    assumption
  · cases h
    assumption
  · cases h

theorem width_le_of_onGrid?_eq_none (hlow : n.low < n.centre) (hhigh : n.centre < n.high)
    (h : n.onGrid? k = none) : ((n.high : ℚ) - n.low) * 2 ^ n.unit ≤ 10 ^ k := by
  generalize hbelow : n.centre * binaryScale n.unit k / decimalScale n.unit k = below
  have hscale : 0 < decimalScale n.unit k :=
    Nat.mul_pos (Nat.pow_pos (by decide)) (Nat.pow_pos (by decide))
  have hle : (below * 10 ^ k : ℚ) ≤ n.centre * 2 ^ n.unit := by
    rw [← decimal_le_binary, ← hbelow]
    exact Nat.div_mul_le_self _ _
  have hlt : (n.centre * 2 ^ n.unit : ℚ) ≤ (below + 1 : Nat) * 10 ^ k := by
    rw [← binary_le_decimal, ← hbelow, Nat.mul_comm (_ + 1)]
    exact (Nat.lt_mul_div_succ _ hscale).le
  have hout : ¬ n.Holds (below * 10 ^ k) ∧ ¬ n.Holds ((below + 1 : Nat) * 10 ^ k) := by
    rw [← contains_iff, ← contains_iff]
    unfold onGrid? at h
    simp only [hbelow] at h
    split at h
    · cases h
    · cases h
    · cases h
    · rename_i hfirst hsecond
      rw [hfirst, hsecond]
      exact ⟨Bool.false_ne_true, Bool.false_ne_true⟩
  have hu := Double.two_zpow_pos n.unit
  have hlow : (n.low : ℚ) * 2 ^ n.unit < n.centre * 2 ^ n.unit :=
    mul_lt_mul_of_pos_right (by exact_mod_cast hlow) hu
  have hhigh : (n.centre : ℚ) * 2 ^ n.unit < n.high * 2 ^ n.unit :=
    mul_lt_mul_of_pos_right (by exact_mod_cast hhigh) hu
  -- The points of the grid on both sides of the centre lie beyond the two ends.
  have h1 := (outside_of_not_holds hout.1).resolve_right (by linarith)
  have h2 := (outside_of_not_holds hout.2).resolve_left (by linarith)
  push_cast at h2
  linarith

theorem holds_of_search {place : Int} {fuel count : Nat} {r : Decimal}
    (h : n.search place fuel count = some r) : n.Holds (r.digits * 10 ^ r.exponent) := by
  induction fuel generalizing count with
  | zero => cases h
  | succ fuel ih =>
    unfold search at h
    dsimp only at h
    split at h
    · rename_i d hd
      cases h
      exact holds_of_onGrid? hd
    · exact ih h

theorem onGrid?_of_search_eq_none {place : Int} {fuel count i : Nat}
    (h : n.search place fuel count = none) (hi : i < fuel) :
    n.onGrid? (place - (count + i - 1)) = none := by
  induction fuel generalizing count i with
  | zero => omega
  | succ fuel ih =>
    unfold search at h
    dsimp only at h
    split at h
    · cases h
    · rename_i hnone
      cases i with
      | zero => simpa using hnone
      | succ i =>
        have := ih h (i := i) (by omega)
        rw [← this]
        congr 2
        push_cast
        ring

theorem ten_zpow_leadingPlace_le (h : 0 < n.centre) :
    (10 : ℚ) ^ n.leadingPlace ≤ n.centre * 2 ^ n.unit := by
  unfold leadingPlace
  dsimp only
  generalize hnum : n.centre * positivePower 2 n.unit = num
  generalize hden : positivePower 2 (-n.unit) = den
  have hnum_pos : 0 < num := hnum ▸ Nat.mul_pos h (Nat.pow_pos (by decide))
  have hden_pos : (0 : ℚ) < den := hden ▸ positivePower_pos (by decide) _
  have hvalue : (n.centre * 2 ^ n.unit : ℚ) = num / den := by
    rw [← hnum, Nat.cast_mul, positivePower_eq (by decide) n.unit, hden]
    field_simp
    rfl
  rw [hvalue, le_div_iff₀ hden_pos]
  split_ifs with hle
  · have hq : num / den ≠ 0 := (Nat.div_pos hle (by exact_mod_cast hden_pos)).ne'
    have hcount : 1 ≤ digitCount (num / den) := Nat.length_toDigits_pos
    have hmul : 10 ^ (digitCount (num / den) - 1) * den ≤ num :=
      (Nat.mul_le_mul_right den (pow_le_of_digitCount hq)).trans (Nat.div_mul_le_self num den)
    have hcast : ((digitCount (num / den) : Int) - 1) = (digitCount (num / den) - 1 : Nat) := by
      omega
    rw [hcast, zpow_natCast]
    exact_mod_cast hmul
  · have hlt := lt_pow_digitCount ((den - 1) / num)
    generalize digitCount ((den - 1) / num) = count at *
    rw [Nat.div_lt_iff_lt_mul hnum_pos] at hlt
    have hmul : den ≤ 10 ^ count * num := by omega
    have hmul : (den : ℚ) ≤ 10 ^ count * num := by exact_mod_cast hmul
    rw [zpow_neg, zpow_natCast, inv_mul_le_iff₀ (by positivity)]
    exact hmul

end Neighbourhood

/-! ## Seventeen digits -/

section

open Neighbourhood

variable {d : Dyadic}

theorem ofDyadic_bounds (h : 0 < d.significand) :
    (ofDyadic d).low < (ofDyadic d).centre ∧ (ofDyadic d).centre < (ofDyadic d).high := by
  simp only [ofDyadic]
  split_ifs <;> omega

theorem two_zpow_unit (d : Dyadic) :
    (2 : ℚ) ^ (ofDyadic d).unit = 2 ^ d.exponent / 4 := by
  show (2 : ℚ) ^ (d.exponent - 2) = _
  rw [zpow_sub₀ two_ne_zero]
  norm_num

theorem high_eq (d : Dyadic) : ((ofDyadic d).high : ℚ) = 4 * d.significand + 2 := by
  simp [ofDyadic]

theorem low_cases (h : 0 < d.significand) :
    d.significand = 2 ^ 52 ∧ -1074 < d.exponent ∧
        ((ofDyadic d).low : ℚ) = 4 * d.significand - 1 ∨
      ¬ (d.significand = 2 ^ 52 ∧ -1074 < d.exponent) ∧
        ((ofDyadic d).low : ℚ) = 4 * d.significand - 2 := by
  simp only [ofDyadic, Bool.and_eq_true, beq_iff_eq, decide_eq_true_eq,
    Dyadic.twoTo, Nat.pow_eq]
  split_ifs with hedge
  · refine Or.inl ⟨hedge.1, hedge.2, ?_⟩
    rw [Nat.cast_sub (by omega)]
    push_cast
    rfl
  · refine Or.inr ⟨hedge, ?_⟩
    rw [Nat.cast_sub (by omega)]
    push_cast
    rfl

theorem roundsTo_of_holds {r : ℚ} (hpos : 0 < d.significand)
    (h : (ofDyadic d).Holds r) : Double.RoundsTo d.significand d.exponent r := by
  have hq := Double.two_zpow_pos d.exponent
  have hlow := low_cases hpos
  have hclosed : (ofDyadic d).closed = true ↔ d.significand % 2 = 0 := beq_iff_eq
  unfold Holds at h
  rw [two_zpow_unit, high_eq] at h
  split_ifs at h with hc
  · refine ⟨?_, ?_, ?_, ?_⟩
    · rcases hlow with ⟨-, -, hl⟩ | ⟨-, hl⟩ <;> rw [hl] at h <;> linarith
    · linarith
    · rw [hclosed] at hc
      omega
    · intro hm he
      rcases hlow with ⟨-, -, hl⟩ | ⟨hne, -⟩
      · rw [hl] at h
        linarith
      · exact absurd ⟨hm, he⟩ hne
  · rw [hclosed] at hc
    have hl : ((ofDyadic d).low : ℚ) = 4 * d.significand - 2 := by
      rcases hlow with ⟨hm, -, -⟩ | ⟨-, hl⟩
      · rw [hm] at hc
        exact absurd rfl hc
      · exact hl
    rw [hl] at h
    refine ⟨by linarith, by linarith, fun _ => ⟨by linarith, by linarith⟩, fun hm _ => ?_⟩
    rw [hm] at hc
    exact absurd rfl hc

theorem exists_search (hc : Double.Canonical d.significand d.exponent) :
    ∃ r, (ofDyadic d).search (ofDyadic d).leadingPlace maxDigits 1 = some r := by
  cases hs : (ofDyadic d).search (ofDyadic d).leadingPlace maxDigits 1 with
  | some r => exact ⟨r, rfl⟩
  | none =>
    exfalso
    obtain ⟨hlow, hhigh⟩ := ofDyadic_bounds hc.pos
    have hwide := width_le_of_onGrid?_eq_none hlow hhigh
      (onGrid?_of_search_eq_none hs (i := 16) (by decide))
    have hplace := ten_zpow_leadingPlace_le (n := ofDyadic d) (by omega)
    have hcentre : ((ofDyadic d).centre : ℚ) = 4 * d.significand := by simp [ofDyadic]
    have hten : (10 : ℚ) ^ ((ofDyadic d).leadingPlace - ((1 : Nat) + (16 : Nat) - 1)) =
        10 ^ (ofDyadic d).leadingPlace / 10 ^ 16 := by
      rw [zpow_sub₀ (by norm_num)]
      norm_num
    have hm : (d.significand : ℚ) < 2 ^ 53 := by exact_mod_cast hc.lt
    have hq := Double.two_zpow_pos d.exponent
    -- The neighbourhood would be less than a `10 ^ 16`th of a number of at most `2 ^ 53` steps.
    rw [hten, le_div_iff₀ (by norm_num)] at hwide
    have hwide := hwide.trans hplace
    rw [hcentre, high_eq, two_zpow_unit] at hwide
    rcases low_cases hc.pos with ⟨hm, -, hl⟩ | ⟨-, hl⟩ <;> rw [hl] at hwide
    · rw [hm] at hwide
      push_cast at hwide
      linarith
    · have : (4 * 10 ^ 16 : ℚ) * (2 ^ d.exponent / 4) ≤ 4 * 2 ^ 53 * (2 ^ d.exponent / 4) := by
        nlinarith
      linarith

end

theorem stripZeros_value (fuel : Nat) (r : Decimal) :
    ((stripZeros fuel r).digits * 10 ^ (stripZeros fuel r).exponent : ℚ) =
      r.digits * 10 ^ r.exponent := by
  induction fuel generalizing r with
  | zero => rfl
  | succ fuel ih =>
    unfold stripZeros
    split_ifs with h
    · rw [Bool.and_eq_true, beq_iff_eq] at h
      have hdigits : (r.digits : ℚ) = (r.digits / 10 : Nat) * 10 := by
        exact_mod_cast (Nat.div_mul_cancel (Nat.dvd_of_mod_eq_zero h.2)).symm
      rw [ih, hdigits, zpow_add_one₀ (by norm_num)]
      ring
    · rfl

/-- The shortest decimal of a double rounds to it. -/
theorem shortest_roundsTo {d : Dyadic} (hc : Double.Canonical d.significand d.exponent) :
    Double.RoundsTo d.significand d.exponent ((shortest d).digits * 10 ^ (shortest d).exponent) := by
  obtain ⟨r, hr⟩ := exists_search hc
  unfold shortest
  dsimp only
  rw [hr, Option.getD_some, stripZeros_value]
  exact roundsTo_of_holds hc.pos (Neighbourhood.holds_of_search hr)

example : (Dyadic.ofFloat? 0.1).map shortest = some ⟨1, -1⟩ := by decide +kernel

example : (Dyadic.ofFloat? 5e-324).map shortest = some ⟨5, -324⟩ := by decide +kernel

/-! ## Reading -/

theorem eight_zpow_eq (k : Int) : (8 : ℚ) ^ k = 2 ^ (3 * k) := by
  rw [zpow_mul]
  norm_num

theorem eight_zpow_le {k : Int} (hk : 0 ≤ k) : (8 : ℚ) ^ k ≤ 10 ^ k :=
  zpow_le_zpow_left₀ hk (by norm_num) (by norm_num)

section

variable {m digits : Nat} {q e : Int}

theorem le_places_of_roundsTo (hc : Double.Canonical m q)
    (hr : Double.RoundsTo m q (digits * 10 ^ e)) : -400 ≤ (digitCount digits : Int) + e := by
  by_contra hout
  have hlt : (digits : ℚ) < 10 ^ (digitCount digits : Int) := by
    rw [zpow_natCast]
    exact_mod_cast lt_pow_digitCount digits
  have h10 : (10 : ℚ) ^ (-400 : Int) ≤ 8 ^ (-400 : Int) := by
    rw [zpow_neg, zpow_neg]
    exact inv_anti₀ (zpow_pos (by norm_num) _) (eight_zpow_le (by decide))
  apply (hr.range hc).1.not_gt
  calc (digits * 10 ^ e : ℚ) < 10 ^ (digitCount digits : Int) * 10 ^ e :=
        mul_lt_mul_of_pos_right hlt (ten_zpow_pos e)
    _ = 10 ^ ((digitCount digits : Int) + e) := (zpow_add₀ (by norm_num) _ _).symm
    _ ≤ 10 ^ (-400 : Int) := zpow_le_zpow_right₀ (by norm_num) (by omega)
    _ ≤ 8 ^ (-400 : Int) := h10
    _ = 2 ^ (3 * -400 : Int) := eight_zpow_eq _
    _ ≤ 2 ^ (-1075 : Int) := zpow_le_zpow_right₀ one_le_two (by decide)

theorem places_le_of_roundsTo (hc : Double.Canonical m q)
    (hr : Double.RoundsTo m q (digits * 10 ^ e)) : (digitCount digits : Int) + e ≤ 400 := by
  by_contra hout
  have hle : (10 : ℚ) ^ ((digitCount digits - 1 : Nat) : Int) ≤ digits := by
    rw [zpow_natCast]
    exact_mod_cast pow_le_of_digitCount (hr.digits_ne_zero hc)
  have hcount : 1 ≤ digitCount digits := Nat.length_toDigits_pos
  apply (hr.range hc).2.not_ge
  calc (2 : ℚ) ^ (1024 : Int) ≤ 2 ^ (3 * 400 : Int) := zpow_le_zpow_right₀ one_le_two (by decide)
    _ = 8 ^ (400 : Int) := (eight_zpow_eq _).symm
    _ ≤ 10 ^ (400 : Int) := eight_zpow_le (by decide)
    _ ≤ 10 ^ (((digitCount digits - 1 : Nat) : Int) + e) :=
        zpow_le_zpow_right₀ (by norm_num) (by omega)
    _ = 10 ^ ((digitCount digits - 1 : Nat) : Int) * 10 ^ e := zpow_add₀ (by norm_num) _ _
    _ ≤ digits * 10 ^ e := mul_le_mul_of_nonneg_right hle (ten_zpow_pos e).le

end

theorem toFloat_eq {x : Float} {s : Sign} {m : Nat} {q : Int} {h : 0 < m}
    (hx : x.toModel.unpack = .finite s m q h) {digits : Nat} {e : Int}
    (hr : Double.RoundsTo m q (digits * 10 ^ e)) :
    toFloat (Double.isNegative s) digits e = x := by
  have hc := Double.canonical_of_unpack hx
  have hlow : -400 ≤ ((Text.digitsOf digits).length : Int) + e := le_places_of_roundsTo hc hr
  have hhigh : ((Text.digitsOf digits).length : Int) + e ≤ 400 := places_le_of_roundsTo hc hr
  have hpos := Double.unpack_ofScientific hc hr
  unfold toFloat
  simp only [beq_iff_eq]
  rw [if_neg (hr.digits_ne_zero hc), if_neg (not_lt.mpr hhigh), if_neg (not_lt.mpr hlow)]
  apply Double.eq_of_unpack_eq
  cases s with
  | positive => exact hpos.trans hx.symm
  | negative =>
    show (-(Float.ofScientific digits (e < 0) e.natAbs)).toModel.unpack = _
    rw [Double.unpack_neg, hpos, hx]
    rfl

end Nabla.Decimal
