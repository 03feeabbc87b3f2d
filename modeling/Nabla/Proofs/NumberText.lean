import Nabla.Json.Printer
import Nabla.Json.Reader
import Nabla.Proofs.ShortestDecimal

/-!
# Numbers in JSON text

Each layout of a decimal is read as digits and an exponent with the same value, so the text of a
double is read as that double. What follows a number must not go on with it.
-/

open Float.Model
open Float.Model.UnpackedFloat hiding unpack pack

namespace Nabla.Json

/-! ## Runs of digits -/

def AllDigits (ds : List Char) : Prop := ∀ c ∈ ds, c.isDigit = true

def NoDigit (cs : List Char) : Prop := ∀ c, cs.head? = some c → c.isDigit = false

/-- A text behind a value: it is over, or a separator or closing bracket follows. -/
def Ends (cs : List Char) : Prop := ∀ c, cs.head? = some c → c = ',' ∨ c = ']' ∨ c = '}'

theorem noDigit_cons {c : Char} (cs : List Char) (h : c.isDigit = false) : NoDigit (c :: cs) := by
  intro c' hc'
  cases hc'
  exact h

theorem Ends.noDigit {cs : List Char} (h : Ends cs) : NoDigit cs := by
  intro c hc
  rcases h c hc with rfl | rfl | rfl <;> rfl

theorem allDigits_append {ds es : List Char} (hds : AllDigits ds) (hes : AllDigits es) :
    AllDigits (ds ++ es) := by
  intro c hc
  rcases List.mem_append.mp hc with hc | hc
  · exact hds c hc
  · exact hes c hc

theorem allDigits_zeros (n : Nat) : AllDigits (List.replicate n '0') := by
  intro c hc
  rw [List.eq_of_mem_replicate hc]
  rfl

theorem allDigits_digitsOf (n : Nat) : AllDigits (Text.digitsOf n) := fun _ hc =>
  Nat.isDigit_of_mem_toDigits (by decide) (by decide) hc

theorem takeWhile_digits {ds rest : List Char} (hds : AllDigits ds) (hrest : NoDigit rest) :
    (ds ++ rest).takeWhile Char.isDigit = ds ∧ (ds ++ rest).dropWhile Char.isDigit = rest := by
  have hnone : rest.takeWhile Char.isDigit = [] ∧ rest.dropWhile Char.isDigit = rest := by
    cases rest with
    | nil => exact ⟨rfl, rfl⟩
    | cons c cs => simp [hrest c rfl]
  rw [List.takeWhile_append_of_pos hds, List.dropWhile_append_of_pos hds, hnone.1, hnone.2,
    List.append_nil]
  exact ⟨rfl, rfl⟩

/-! ## The digits of a number -/

theorem digitsOf_head {n : Nat} (hn : n ≠ 0) :
    ∃ c cs, Text.digitsOf n = c :: cs ∧ c ≠ '0' := by
  induction n using Nat.strong_induction_on with
  | _ n ih =>
    by_cases h10 : n < 10
    · have hall : ∀ i : Fin 10, i.val ≠ 0 → Nat.digitChar i ≠ '0' := by decide
      exact ⟨_, [], Nat.toDigits_of_lt_base h10, hall ⟨n, h10⟩ hn⟩
    · obtain ⟨c, cs, hcs, hc⟩ := ih (n / 10) (by omega) (by omega)
      refine ⟨c, cs ++ [Nat.digitChar (n % 10)], ?_, hc⟩
      rw [Text.digitsOf, Nat.toDigits_of_base_le (by decide) (by omega)]
      show Text.digitsOf (n / 10) ++ _ = _
      rw [hcs, List.cons_append]

theorem ofDigits_append (ds es : List Char) :
    Text.ofDigits (ds ++ es) = Text.ofDigits ds * 10 ^ es.length + Text.ofDigits es := by
  show Nat.ofDigitChars 10 (ds ++ es) 0 = Nat.ofDigitChars 10 ds 0 * _ + Nat.ofDigitChars 10 es 0
  rw [Nat.ofDigitChars_append, Nat.ofDigitChars_eq_ofDigitChars_zero, Nat.mul_comm]

theorem ofDigits_digitsOf (n : Nat) : Text.ofDigits (Text.digitsOf n) = n :=
  Nat.ofDigitChars_ten_toDigits

theorem ofDigits_zeros (n : Nat) : Text.ofDigits (List.replicate n '0') = 0 :=
  (@Nat.ofDigitChars_replicate_zero 10 0 n).trans (Nat.mul_zero _)

/-! ## The parts of a number -/

/-- Digits that may stand before the point. -/
def IsWhole (ds : List Char) : Prop := ds = ['0'] ∨ ∃ c cs, ds = c :: cs ∧ c ≠ '0' ∧ AllDigits ds

theorem isWhole_digitsOf (n : Nat) : IsWhole (Text.digitsOf n) := by
  by_cases h0 : n = 0
  · rw [h0]
    exact Or.inl (Nat.toDigits_zero 10)
  · obtain ⟨c, cs, hcs, hc⟩ := digitsOf_head h0
    exact Or.inr ⟨c, cs, hcs, hc, allDigits_digitsOf _⟩

theorem IsWhole.head {ds : List Char} (h : IsWhole ds) :
    ∃ c cs, ds = c :: cs ∧ c.isDigit = true := by
  rcases h with rfl | ⟨c, cs, rfl, -, hall⟩
  · exact ⟨'0', [], rfl, rfl⟩
  · exact ⟨c, cs, rfl, hall c List.mem_cons_self⟩

theorem wholePart?_append {ds rest : List Char} (hds : IsWhole ds) (hrest : NoDigit rest) :
    wholePart? (ds ++ rest) = some (ds, rest) := by
  rcases hds with rfl | ⟨c, cs, rfl, hc, hall⟩
  · rfl
  · obtain ⟨htake, hdrop⟩ := takeWhile_digits hall hrest
    have hdigit : c.isDigit = true := hall c List.mem_cons_self
    rw [List.cons_append] at htake hdrop ⊢
    simp [wholePart?, hdigit, htake, hdrop]

theorem fraction_point {ds rest : List Char} (hne : ds ≠ []) (hds : AllDigits ds)
    (hrest : NoDigit rest) : fraction ('.' :: (ds ++ rest)) = (some ds, rest) := by
  obtain ⟨htake, hdrop⟩ := takeWhile_digits hds hrest
  unfold fraction
  simp only [htake, hdrop]

theorem fraction_of_head {cs : List Char} (h : ∀ c, cs.head? = some c → c ≠ '.') :
    fraction cs = (none, cs) := by
  unfold fraction
  split
  · exact absurd rfl (h _ rfl)
  · rfl

theorem exponent_mark {ds rest : List Char} (negative : Bool) (hne : ds ≠ []) (hds : AllDigits ds)
    (hrest : NoDigit rest) :
    exponent ('e' :: (if negative then '-' else '+') :: (ds ++ rest)) =
      (some (if negative then -(Text.ofDigits ds : Int) else Text.ofDigits ds), rest) := by
  obtain ⟨htake, hdrop⟩ := takeWhile_digits hds hrest
  unfold exponent
  cases negative <;> simp [Decimal.splitSign, htake, hdrop]

theorem exponent_of_head {cs : List Char} (h : ∀ c, cs.head? = some c → c ≠ 'e' ∧ c ≠ 'E') :
    exponent cs = (none, cs) := by
  unfold exponent
  cases cs with
  | nil => rfl
  | cons c cs => simp [h c rfl]

theorem Ends.fraction_eq {cs : List Char} (h : Ends cs) : fraction cs = (none, cs) := by
  refine fraction_of_head fun c hc => ?_
  rcases h c hc with rfl | rfl | rfl <;> decide

theorem Ends.exponent_eq {cs : List Char} (h : Ends cs) : exponent cs = (none, cs) := by
  refine exponent_of_head fun c hc => ?_
  rcases h c hc with rfl | rfl | rfl <;> decide

theorem readNumber_float {negative : Bool} {cs whole rest rest' rest'' : List Char}
    {behind : Option (List Char)} {power : Option Int} (hwhole : wholePart? cs = some (whole, rest))
    (hfraction : fraction rest = (behind, rest')) (hexponent : exponent rest' = (power, rest''))
    (h : behind.isSome ∨ power.isSome) :
    readNumber negative cs = .ok (.float (Decimal.toFloat negative
      (Text.ofDigits (whole ++ behind.getD []))
      (power.getD 0 - (behind.getD []).length)), rest'') := by
  unfold readNumber
  simp only [hwhole, hfraction, hexponent]
  cases behind with
  | some ds => cases power <;> rfl
  | none =>
    cases power with
    | some e => rfl
    | none => simp at h

/-! ## Layouts -/

/-- The text is read as a number with the given value, whatever may follow it. -/
structure ReadsAs (cs : List Char) (value : ℚ) : Prop where
  digit : ∃ c tail, cs = c :: tail ∧ c.isDigit = true
  read : ∀ negative rest, Ends rest → ∃ digits e, readNumber negative (cs ++ rest) =
    .ok (.float (Decimal.toFloat negative digits e), rest) ∧ (digits * 10 ^ e : ℚ) = value

theorem readsAs_point (whole behind : List Char) (hwhole : IsWhole whole) (hne : behind ≠ [])
    (hbehind : AllDigits behind) :
    ReadsAs (whole ++ '.' :: behind)
      (Text.ofDigits (whole ++ behind) * 10 ^ (-(behind.length : Int))) := by
  obtain ⟨c, cs, hcs, hc⟩ := hwhole.head
  refine ⟨⟨c, cs ++ '.' :: behind, by rw [hcs, List.cons_append], hc⟩, ?_⟩
  intro negative rest hrest
  have h₁ := wholePart?_append hwhole (noDigit_cons (behind ++ rest) (c := '.') rfl)
  have h₂ := fraction_point hne hbehind hrest.noDigit
  rw [List.append_assoc]
  exact ⟨_, _, readNumber_float h₁ h₂ hrest.exponent_eq (Or.inl rfl), by simp⟩

/-- A point and digits, or nothing if there are none. -/
def pointed : List Char → List Char
  | [] => []
  | ds => '.' :: ds

theorem readsAs_power (low : Bool) (whole : List Char) {behind power : List Char}
    (hwhole : IsWhole whole) (hbehind : AllDigits behind) (hne : power ≠ [])
    (hpower : AllDigits power) :
    ReadsAs (whole ++ pointed behind ++ 'e' :: (if low then '-' else '+') :: power)
      (Text.ofDigits (whole ++ behind) *
        10 ^ ((if low then -(Text.ofDigits power : Int) else Text.ofDigits power) -
          behind.length)) := by
  obtain ⟨c, cs, hcs, hc⟩ := hwhole.head
  refine ⟨⟨c, _, by rw [hcs, List.cons_append, List.cons_append], hc⟩, ?_⟩
  intro negative rest hrest
  generalize htail : 'e' :: (if low then '-' else '+') :: (power ++ rest) = tail
  have hexponent : exponent tail = _ := htail ▸ exponent_mark low hne hpower hrest.noDigit
  have htail' : NoDigit tail := htail ▸ noDigit_cons _ rfl
  have happend : whole ++ pointed behind ++ 'e' :: (if low then '-' else '+') :: power ++ rest =
      whole ++ (pointed behind ++ tail) := by
    rw [← htail]
    simp
  rw [happend]
  cases behind with
  | nil =>
    have h₁ := wholePart?_append hwhole htail'
    have h₂ : fraction tail = (none, tail) := fraction_of_head (by
      rw [← htail]
      simp)
    exact ⟨_, _, readNumber_float h₁ h₂ hexponent (Or.inr rfl), by simp⟩
  | cons c cs =>
    have h₁ := wholePart?_append hwhole (noDigit_cons ((c :: cs) ++ tail) (c := '.') rfl)
    have h₂ := fraction_point (List.cons_ne_nil c cs) hbehind htail'
    exact ⟨_, _, readNumber_float h₁ h₂ hexponent (Or.inl rfl), by simp⟩

theorem readsAs_congr {cs : List Char} {v w : ℚ} (h : ReadsAs cs v) (hvw : v = w) : ReadsAs cs w :=
  hvw ▸ h

open Decimal in
theorem readsAs_positional {ds : List Char} {c : Char} {cs : List Char} (hds : ds = c :: cs)
    (hc : c ≠ '0') (hall : AllDigits ds) (place : Int) :
    ReadsAs (positional .standard ds place)
      (Text.ofDigits ds * 10 ^ (place - (ds.length - 1))) := by
  have hlen : 0 < ds.length := by simp [hds]
  unfold positional
  dsimp only
  split_ifs with hneg hfront
  · -- Zeros stand between the point and the digits.
    refine readsAs_congr (readsAs_point ['0'] (List.replicate (-place - 1).toNat '0' ++ ds)
      (Or.inl rfl) ?_ ?_) ?_
    · simp [hds]
    · exact allDigits_append (allDigits_zeros _) hall
    · have hdigits : Text.ofDigits (['0'] ++ (List.replicate (-place - 1).toNat '0' ++ ds)) =
          Text.ofDigits ds := by
        rw [ofDigits_append, ofDigits_append, ofDigits_zeros, Nat.zero_mul, Nat.zero_add]
        exact (congrArg (· + _) (Nat.zero_mul _)).trans (Nat.zero_add _)
      rw [hdigits, List.length_append, List.length_replicate]
      congr 2
      omega
  · -- Zeros fill the digits up to the point.
    have hwhole : IsWhole (ds ++ List.replicate (place.toNat + 1 - ds.length) '0') :=
      Or.inr ⟨c, cs ++ List.replicate (place.toNat + 1 - ds.length) '0',
        by rw [hds, List.cons_append], hc, allDigits_append hall (allDigits_zeros _)⟩
    refine readsAs_congr (readsAs_point _ ['0'] hwhole (by decide) (allDigits_zeros 1)) ?_
    have hplace : place - ((ds.length : Int) - 1) = (place.toNat + 1 - ds.length : Nat) := by omega
    have hlast : Text.ofDigits ['0'] = 0 := rfl
    rw [ofDigits_append, ofDigits_append, ofDigits_zeros, List.length_replicate, hplace, hlast,
      zpow_natCast]
    push_cast
    simp only [List.length_singleton, Nat.cast_one, pow_one, add_zero, zpow_neg_one]
    rw [mul_inv_cancel_right₀ (by norm_num)]
  · refine readsAs_congr (readsAs_point (ds.take (place.toNat + 1))
      (ds.drop (place.toNat + 1)) ?_ ?_ ?_) ?_
    · exact Or.inr ⟨c, cs.take place.toNat, by rw [hds]; rfl, hc,
        fun c hc => hall c (List.mem_of_mem_take hc)⟩
    · rw [Ne, List.drop_eq_nil_iff]
      omega
    · exact fun c hc => hall c (List.mem_of_mem_drop hc)
    · rw [List.take_append_drop, List.length_drop]
      congr 2
      omega

open Decimal in
theorem scientific_cons (c : Char) (cs : List Char) (place : Int) :
    scientific .standard (c :: cs) place =
      [c] ++ pointed cs ++ 'e' :: (if decide (place < 0) then '-' else '+') ::
        padLeft 2 (Text.digitsOf place.natAbs) := by
  simp only [decide_eq_true_eq]
  cases cs <;> rfl

open Decimal in
theorem readsAs_scientific {ds : List Char} {c : Char} {cs : List Char} (hds : ds = c :: cs)
    (hc : c ≠ '0') (hall : AllDigits ds) (place : Int) :
    ReadsAs (scientific .standard ds place)
      (Text.ofDigits ds * 10 ^ (place - (ds.length - 1))) := by
  subst hds
  have hpower : AllDigits (padLeft 2 (Text.digitsOf place.natAbs)) :=
    allDigits_append (allDigits_zeros _) (allDigits_digitsOf _)
  have hne : padLeft 2 (Text.digitsOf place.natAbs) ≠ [] := by
    simp [padLeft, Text.digitsOf]
  have hvalue : Text.ofDigits (padLeft 2 (Text.digitsOf place.natAbs)) = place.natAbs := by
    rw [padLeft, ofDigits_append, ofDigits_zeros, ofDigits_digitsOf, Nat.zero_mul, Nat.zero_add]
  have h := readsAs_power (decide (place < 0)) [c]
    (Or.inr ⟨c, [], rfl, hc, fun c' hc' => hall c' (List.mem_of_mem_take (i := 1) hc')⟩)
    (fun c' hc' => hall c' (List.mem_cons_of_mem c hc')) hne hpower
  rw [scientific_cons]
  refine readsAs_congr h ?_
  rw [hvalue]
  congr 2
  simp only [decide_eq_true_eq, List.length_cons]
  split_ifs <;> omega

open Decimal in
theorem readsAs_layOut {r : Decimal} (hr : r.digits ≠ 0) :
    ReadsAs (layOut .standard r) (r.digits * 10 ^ r.exponent) := by
  have hall := allDigits_digitsOf r.digits
  obtain ⟨c, cs, hds, hc⟩ := digitsOf_head hr
  have hvalue : (r.digits * 10 ^ r.exponent : ℚ) = Text.ofDigits (Text.digitsOf r.digits) *
      10 ^ (r.exponent + ((Text.digitsOf r.digits).length - 1) -
        ((Text.digitsOf r.digits).length - 1)) := by
    rw [ofDigits_digitsOf, add_sub_cancel_right]
  rw [hvalue]
  unfold layOut
  dsimp only
  split_ifs
  · exact readsAs_positional hds hc hall _
  · exact readsAs_scientific hds hc hall _

/-! ## Words and signs -/

theorem word?_of_ne {w c : Char} (ws cs : List Char) (h : (w == c) = false) :
    word? (w :: ws) (c :: cs) = none := by
  rw [word?, h]
  rfl

theorem findSome?_words {cs : List Char} (h : ∀ p ∈ words, word? p.1.toList cs = none) :
    words.findSome? (fun (w, j) => (word? w.toList cs).map ((j, ·))) = none := by
  rw [List.findSome?_eq_none_iff]
  rintro ⟨w, j⟩ hp
  exact congrArg (Option.map _) (h _ hp)

theorem word?_self (w : Char) (ws cs : List Char) : word? (w :: ws) (w :: cs) = word? ws cs := by
  rw [word?, beq_self_eq_true, if_pos rfl]

theorem readAtom_signed {ds : List Char} (h : ∃ c cs, ds = c :: cs ∧ c.isDigit = true)
    (negative : Bool) (rest : List Char) :
    readAtom (Decimal.signed negative ds ++ rest) = readNumber negative (ds ++ rest) := by
  obtain ⟨c, cs, rfl, hc⟩ := h
  have hne {w : Char} (hw : w.isDigit = false) : (w == c) = false := by
    rw [beq_eq_false_iff_ne]
    rintro rfl
    rw [hc] at hw
    cases hw
  have hnone : ∀ p ∈ words,
      word? p.1.toList (Decimal.signed negative (c :: cs) ++ rest) = none := by
    simp only [words, List.forall_mem_cons]
    cases negative with
    | false =>
      refine ⟨?_, ?_, ?_, ?_, ?_, ?_, fun _ h => nomatch h⟩ <;> exact word?_of_ne _ _ (hne rfl)
    | true =>
      refine ⟨?_, ?_, ?_, ?_, ?_, ?_, fun _ h => nomatch h⟩
      case refine_6 => exact (word?_self '-' _ _).trans (word?_of_ne _ _ (hne rfl))
      all_goals exact word?_of_ne _ _ rfl
  unfold readAtom
  rw [findSome?_words hnone]
  cases negative with
  | false =>
    have hminus : c ≠ '-' := by
      rintro rfl
      cases hc
    simp [Decimal.signed, hminus]
  | true => rfl

theorem readAtom_intText {n : Int} (hn : (Text.digitsOf n.natAbs).length ≤ Decimal.digitLimit)
    {rest : List Char} (hrest : Ends rest) :
    readAtom ((intText n).toList ++ rest) = .ok (.int n, rest) := by
  have hwhole := isWhole_digitsOf n.natAbs
  have hpart := wholePart?_append hwhole hrest.noDigit
  have hnumber : readNumber (n < 0) (Text.digitsOf n.natAbs ++ rest) = .ok (.int n, rest) := by
    unfold readNumber
    simp only [hpart, hrest.fraction_eq, hrest.exponent_eq, if_neg (not_lt.mpr hn),
      ofDigits_digitsOf, decide_eq_true_eq]
    congr 3
    split_ifs <;> omega
  rw [intText, String.toList_ofList, readAtom_signed hwhole.head, hnumber]

/-! ## Doubles -/

theorem readAtom_finiteText {x : Float} {s : Sign} {m : Nat} {q : Int} {hm : 0 < m}
    (hx : x.toModel.unpack = .finite s m q hm) {rest : List Char} (hrest : Ends rest) :
    readAtom (Decimal.finiteText ⟨Double.isNegative s, m, q⟩ ++ rest) = .ok (.float x, rest) := by
  have hc := Double.canonical_of_unpack hx
  have hr := Decimal.shortest_roundsTo (d := ⟨Double.isNegative s, m, q⟩) hc
  have hread := readsAs_layOut (hr.digits_ne_zero hc)
  obtain ⟨digits, e, hnumber, hvalue⟩ := hread.read (Double.isNegative s) rest hrest
  unfold Decimal.finiteText
  rw [if_neg (by simpa using hm.ne'), readAtom_signed hread.digit, hnumber, Decimal.toFloat_eq hx]
  rw [hvalue]
  exact hr

theorem readAtom_zero {x : Float} {s : Sign} (hx : x.toModel.unpack = .zero s) {rest : List Char}
    (hrest : Ends rest) :
    readAtom (Decimal.finiteText ⟨Double.isNegative s, 0, -1074⟩ ++ rest) =
      .ok (.float x, rest) := by
  have hread := readsAs_point ['0'] ['0'] (Or.inl rfl) (by decide) (allDigits_zeros 1)
  obtain ⟨digits, e, hnumber, hvalue⟩ := hread.read (Double.isNegative s) rest hrest
  have hdigits : digits = 0 := by
    have hzero : Text.ofDigits (['0'] ++ ['0']) = 0 := rfl
    rw [hzero, Nat.cast_zero, zero_mul] at hvalue
    exact_mod_cast (mul_eq_zero.mp hvalue).resolve_right (Decimal.ten_zpow_pos e).ne'
  refine (readAtom_signed hread.digit _ rest).trans (hnumber.trans ?_)
  rw [hdigits]
  congr 3
  apply Double.eq_of_unpack_eq
  rw [hx]
  cases s with
  | positive => exact Double.unpack_zero
  | negative => exact Double.unpack_neg 0

theorem readAtom_infinity {x : Float} {s : Sign} (hx : x.toModel.unpack = .infinity s)
    (rest : List Char) : readAtom (printFloat x ++ rest) = .ok (.float x, rest) := by
  have hinf : x.isInf = true := by
    show x.toModel.unpack.isInf = true
    rw [hx]
    rfl
  have hnan : x.isNaN = false := by
    show x.toModel.unpack.isNaN = false
    rw [hx]
    rfl
  have htext : printFloat x = (if x < 0 then "-" ++ "Infinity" else "Infinity").toList := by
    unfold printFloat Decimal.textWith
    rw [Double.ofFloat?_eq_dyadic?, hx]
    simp only [Double.dyadic?, hnan, Bool.false_eq_true, if_false]
  rw [htext]
  cases s with
  | positive =>
    have hpos : 0 < x := (Double.zero_lt_iff hx).mpr rfl
    have hneg : ¬ x < 0 := by
      intro h
      cases (Double.lt_zero_iff hx).mp h
    rw [if_neg hneg, Double.eq_infinity hinf hpos]
    rfl
  | negative =>
    have hneg : x < 0 := (Double.lt_zero_iff hx).mpr rfl
    have hpos : ¬ 0 < x := by
      intro h
      cases (Double.zero_lt_iff hx).mp h
    have hword : (-1.0 / 0.0 : Float) = -(1.0 / 0.0) :=
      Double.eq_neg_infinity (by decide +kernel) (by decide +kernel)
    rw [if_pos hneg, Double.eq_neg_infinity hinf hpos, ← hword]
    rfl

/-- The text of every double is read as that double. -/
theorem readAtom_printFloat (x : Float) {rest : List Char} (hrest : Ends rest) :
    readAtom (printFloat x ++ rest) = .ok (.float x, rest) := by
  have hfinite {d : Dyadic} (hd : Double.dyadic? x.toModel.unpack = some d) :
      printFloat x = Decimal.finiteText d := by
    unfold printFloat Decimal.textWith
    rw [Double.ofFloat?_eq_dyadic?, hd]
    exact String.toList_ofList
  cases hx : x.toModel.unpack with
  | infinity s => exact readAtom_infinity hx rest
  | notANumber =>
    have hnan : x.isNaN = true := by
      show x.toModel.unpack.isNaN = true
      rw [hx]
      rfl
    have htext : printFloat x = "NaN".toList := by
      unfold printFloat Decimal.textWith
      rw [Double.ofFloat?_eq_dyadic?, hx]
      simp only [Double.dyadic?, hnan, if_true]
    rw [htext, Double.eq_nan hnan]
    rfl
  | zero s =>
    rw [hfinite (by rw [hx]; rfl)]
    exact readAtom_zero hx hrest
  | finite s m q hm =>
    rw [hfinite (by rw [hx]; rfl)]
    exact readAtom_finiteText hx hrest

end Nabla.Json
