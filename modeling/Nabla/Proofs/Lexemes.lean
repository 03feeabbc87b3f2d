import Nabla.Proofs.Double.Void
import Nabla.Proofs.Grammar
import Nabla.Proofs.NumberText

/-!
# Cutting generated code into lexemes

A lexeme ends where a blank, a bracket or a comma follows. The text of a number without a sign is one
lexeme, also where it has an exponent with a sign, and the number is read from it again.
-/

namespace Nabla

namespace Grammar

/-! ## Where lexemes end -/

/-- Whether all the characters go on with a lexeme. -/
def continues (begun : List Char) : List Char → Bool
  | [] => true
  | c :: cs => joins begun c && continues (begun ++ [c]) cs

/-- Whether the text is one lexeme. -/
def isLexeme : List Char → Bool
  | [] => false
  | c :: cs => !isBlank c && continues [c] cs

/-- The text behind is over, or starts with a character that goes on with no lexeme. -/
def Closes (rest : List Char) : Prop := ∀ c ∈ rest.head?, c ∈ [' ', '(', ')', '[', ']', ',']

theorem closes_nil : Closes [] := by simp [Closes]

theorem closes_cons {c : Char} (rest : List Char) (h : c ∈ [' ', '(', ')', '[', ']', ',']) :
    Closes (c :: rest) := by
  simpa [Closes] using h

theorem Closes.joins_eq_false {rest : List Char} (h : Closes rest) (begun : List Char) :
    ∀ c ∈ rest.head?, joins begun c = false := by
  intro c hc
  have hmem := h c hc
  simp only [List.mem_cons, List.not_mem_nil, or_false] at hmem
  cases begun with
  | nil => rfl
  | cons b begun =>
    unfold joins
    rcases hmem with rfl | rfl | rfl | rfl | rfl | rfl <;> simp [isWordChar, Char.isAlphanum]

theorem lexemesFrom_append {begun w : List Char} (h : continues begun w = true) (rest : List Char) :
    lexemesFrom begun (w ++ rest) = lexemesFrom (begun ++ w) rest := by
  induction w generalizing begun with
  | nil => simp
  | cons c w ih =>
    obtain ⟨hc, hw⟩ := Bool.and_eq_true_iff.mp h
    rw [List.cons_append, lexemesFrom, if_pos hc, ih hw, List.append_assoc, List.singleton_append]

theorem lexemesFrom_of_break {begun rest : List Char} (h : ∀ c ∈ rest.head?, joins begun c = false) :
    lexemesFrom begun rest = complete begun ++ lexemes rest := by
  cases rest with
  | nil => simp [lexemes, lexemesFrom, complete]
  | cons c cs =>
    rw [lexemesFrom, h c rfl]
    rfl

theorem lexemes_append {w rest : List Char} (hw : isLexeme w = true) (hrest : Closes rest) :
    lexemes (w ++ rest) = String.ofList w :: lexemes rest := by
  cases w with
  | nil => cases hw
  | cons c w =>
    obtain ⟨hc, hw⟩ := Bool.and_eq_true_iff.mp hw
    show lexemesFrom [c] (w ++ rest) = _
    rw [lexemesFrom_append hw, lexemesFrom_of_break (hrest.joins_eq_false _), complete]
    simp_all

example : lexemes "(np.exp(-values[10]) - -1.5e-07 ** 2)".toList =
    ["(", "np", ".", "exp", "(", "-", "values", "[", "10", "]", ")", "-", "-", "1.5e-07", "**", "2",
      ")"] := by
  decide

theorem lexemes_mark {c : Char} (hword : isWordChar c = false) (hblank : isBlank c = false)
    (hstar : c ≠ '*') (rest : List Char) : lexemes (c :: rest) = String.ofList [c] :: lexemes rest := by
  have hdigit : c.isDigit = false := by
    cases hd : c.isDigit with
    | false => rfl
    | true => simp [isWordChar, Char.isAlphanum, hd] at hword
  show lexemesFrom [c] rest = _
  rw [lexemesFrom_of_break (by simp [joins, hdigit, hword, hstar])]
  simp [complete, hblank]

theorem lexemes_blank (rest : List Char) : lexemes (' ' :: rest) = lexemes rest := by
  show lexemesFrom [' '] rest = _
  rw [lexemesFrom_of_break (by simp [joins, isWordChar, Char.isAlphanum])]
  rfl

/-! ## Numbers -/

theorem continues_append {begun v w : List Char} :
    continues begun (v ++ w) = (continues begun v && continues (begun ++ v) w) := by
  induction v generalizing begun with
  | nil => simp [continues]
  | cons c v ih => simp [continues, ih, Bool.and_assoc]

theorem isWordChar_of_isDigit {c : Char} (h : c.isDigit = true) : isWordChar c = true := by
  simp [isWordChar, Char.isAlphanum, h]

theorem continues_digits {d : Char} (hd : d.isDigit = true) (begun : List Char) {w : List Char}
    (hw : ∀ c ∈ w, c.isDigit = true ∨ c = '.') : continues (d :: begun) w = true := by
  induction w generalizing begun with
  | nil => rfl
  | cons c w ih =>
    obtain ⟨hc, hw⟩ := List.forall_mem_cons.mp hw
    refine Bool.and_eq_true_iff.mpr ⟨?_, ih (begun ++ [c]) hw⟩
    rcases hc with hc | rfl
    · simp [joins, hd, isWordChar_of_isDigit hc]
    · simp [joins, hd]

theorem continues_exponent {d : Char} (hd : d.isDigit = true) (begun : List Char) {sign : Char}
    (hsign : sign = '-' ∨ sign = '+') {power : List Char} (hpower : Json.AllDigits power) :
    continues (d :: begun) ('e' :: sign :: power) = true := by
  have hlast : (d :: (begun ++ ['e'])).getLast? = some 'e' := by
    rw [← List.cons_append, List.getLast?_concat]
  have hword : isWordChar 'e' = true := by decide
  have hmark : joins (d :: begun) 'e' = true := by simp [joins, hd, hword]
  have hjoin : joins (d :: (begun ++ ['e'])) sign = true := by
    rcases hsign with rfl | rfl <;> simp [joins, hd, hlast]
  have hdigits := continues_digits hd (begun ++ ['e'] ++ [sign]) fun c hc => .inl (hpower c hc)
  simp only [continues, List.cons_append, hmark, hjoin, hdigits, Bool.and_self]

theorem isLexeme_of_digit {c : Char} {w : List Char} (hc : c.isDigit = true)
    (hw : continues [c] w = true) : isLexeme (c :: w) = true := by
  have hblank : isBlank c = false := by
    rw [isBlank, Bool.or_eq_false_iff, beq_eq_false_iff_ne, beq_eq_false_iff_ne]
    constructor <;> rintro rfl <;> cases hc
  simp [isLexeme, hblank, hw]

open Decimal in
theorem positional_chars {ds : List Char} (hds : Json.AllDigits ds) (place : Int) :
    ∀ c ∈ positional .standard ds place, c.isDigit = true ∨ c = '.' := by
  have hzero (n : Nat) := Json.allDigits_zeros n
  intro c hc
  unfold positional at hc
  dsimp only [Layout.standard] at hc
  split_ifs at hc
  · simp only [List.mem_append, List.mem_cons, List.not_mem_nil, or_false] at hc
    rcases hc with ((rfl | rfl) | hc) | hc
    · exact .inl rfl
    · exact .inr rfl
    · exact .inl (hzero _ c hc)
    · exact .inl (hds c hc)
  · simp only [List.mem_append, List.mem_cons, List.not_mem_nil, or_false] at hc
    rcases hc with (hc | hc) | rfl | rfl
    · exact .inl (hds c hc)
    · exact .inl (hzero _ c hc)
    · exact .inr rfl
    · exact .inl rfl
  · simp only [List.mem_append, List.mem_cons] at hc
    rcases hc with hc | rfl | hc
    · exact .inl (hds c (List.mem_of_mem_take hc))
    · exact .inr rfl
    · exact .inl (hds c (List.mem_of_mem_drop hc))

open Decimal in
theorem continues_layOut {r : Decimal} (hr : r.digits ≠ 0) {c : Char} {w : List Char}
    (h : layOut .standard r = c :: w) (hc : c.isDigit = true) : continues [c] w = true := by
  have hall := Json.allDigits_digitsOf r.digits
  obtain ⟨d, ds, hds, -⟩ := Json.digitsOf_head hr
  unfold layOut at h
  dsimp only at h
  split_ifs at h
  · have hchars := positional_chars hall (r.exponent + ((Text.digitsOf r.digits).length - 1))
    rw [h] at hchars
    exact continues_digits hc [] (List.forall_mem_cons.mp hchars).2
  · rw [hds] at h hall
    rw [Json.scientific_cons] at h
    obtain ⟨rfl, rfl⟩ := List.cons.inj h
    show continues [d] (Json.pointed ds ++ _) = true
    rw [continues_append, Bool.and_eq_true]
    refine ⟨continues_digits hc [] fun c' hc' => ?_, continues_exponent hc _ ?_ ?_⟩
    · cases ds with
      | nil => cases hc'
      | cons d' ds =>
        rcases List.mem_cons.mp hc' with rfl | hc'
        · exact .inr rfl
        · exact .inl (hall c' (List.mem_cons_of_mem d hc'))
    · split_ifs <;> simp
    · exact Json.allDigits_append (Json.allDigits_zeros _) (Json.allDigits_digitsOf _)

/-- A finite number whose text has no sign. -/
def Unsigned (x : Float) : Prop := ∃ d, Dyadic.ofFloat? x = some d ∧ d.negative = false

theorem text_of_finite {x : Float} {d : Dyadic} (h : Dyadic.ofFloat? x = some d) :
    (Decimal.text x).toList = Decimal.finiteText d ∧
      Json.printFloat x = Decimal.finiteText d := by
  unfold Json.printFloat Decimal.text Decimal.textWith
  rw [h]
  exact ⟨String.toList_ofList, String.toList_ofList⟩

theorem text_unsigned {x : Float} (hx : Unsigned x) :
    ∃ c w, (Decimal.text x).toList = c :: w ∧ c.isDigit = true ∧ isLexeme (c :: w) = true := by
  obtain ⟨d, hd, hsign⟩ := hx
  rw [(text_of_finite hd).1]
  rw [Double.ofFloat?_eq_dyadic?] at hd
  cases hu : x.toModel.unpack with
  | zero s =>
    rw [hu] at hd
    obtain rfl := Option.some.inj hd
    rw [Decimal.finiteText, hsign]
    exact ⟨'0', ['.', '0'], rfl, rfl, rfl⟩
  | finite s m q hm =>
    rw [hu] at hd
    obtain rfl := Option.some.inj hd
    have hc := Double.canonical_of_unpack hu
    have hr := Decimal.shortest_roundsTo (d := ⟨Double.isNegative s, m, q⟩) hc
    have hdigits := hr.digits_ne_zero hc
    obtain ⟨c, w, hcw, hdigit⟩ := (Json.readsAs_layOut hdigits).digit
    refine ⟨c, w, ?_, hdigit, isLexeme_of_digit hdigit (continues_layOut hdigits hcw hdigit)⟩
    rw [Decimal.finiteText, hsign, if_neg (by simpa using hm.ne'), hcw]
    rfl
  | infinity s | notANumber =>
    rw [hu] at hd
    cases hd

/-- The text of an unsigned number is one lexeme, and is read as that number. -/
theorem lexemes_unsigned {x : Float} (hx : Unsigned x) :
    ∃ l, Json.readNumber false l.toList = .ok (.float x, []) ∧
      ∀ rest, Closes rest → lexemes ((Decimal.text x).toList ++ rest) = l :: lexemes rest := by
  obtain ⟨c, w, htext, hc, hw⟩ := text_unsigned hx
  obtain ⟨d, hd, -⟩ := hx
  refine ⟨String.ofList (c :: w), ?_, fun rest hrest => ?_⟩
  · have hends : Json.Ends [] := by simp [Json.Ends]
    have hread := Json.readAtom_printFloat x hends
    obtain ⟨htext', hprint⟩ := text_of_finite hd
    rw [hprint, ← htext', htext] at hread
    have hnumber : Json.readAtom (c :: w ++ []) = Json.readNumber false (c :: w ++ []) :=
      Json.readAtom_signed ⟨c, w, rfl, hc⟩ false []
    rw [List.append_nil] at hread hnumber
    rw [String.toList_ofList]
    exact hnumber.symm.trans hread
  · rw [htext, lexemes_append hw hrest]

theorem ofFloat?_neg (x : Float) :
    Dyadic.ofFloat? (-x) = (Dyadic.ofFloat? x).map fun d => { d with negative := !d.negative } := by
  rw [Double.ofFloat?_eq_dyadic?, Double.ofFloat?_eq_dyadic?, Double.unpack_neg]
  cases x.toModel.unpack with
  | zero s | finite s => cases s <;> rfl
  | infinity | notANumber => rfl

theorem neg_neg (x : Float) : - -x = x := by
  apply Double.eq_of_unpack_eq
  rw [Double.unpack_neg, Double.unpack_neg]
  cases x.toModel.unpack with
  | zero s | finite s | infinity s => cases s <;> rfl
  | notANumber => rfl

theorem text_neg {x : Float} (hx : Unsigned x) :
    (Decimal.text (-x)).toList = '-' :: (Decimal.text x).toList := by
  obtain ⟨d, hd, hsign⟩ := hx
  have hneg : Dyadic.ofFloat? (-x) = some { d with negative := true } := by
    rw [ofFloat?_neg, hd, Option.map_some, hsign]
    rfl
  rw [(text_of_finite hd).1, (text_of_finite hneg).1, Decimal.finiteText, Decimal.finiteText, hsign]
  rfl

theorem exists_dyadic {x : Float} (hnan : ¬ x.isNaN = true) (hinf : ¬ x.isInf = true) :
    ∃ d, Dyadic.ofFloat? x = some d := by
  rw [Double.ofFloat?_eq_dyadic?]
  cases hu : x.toModel.unpack with
  | zero | finite => exact ⟨_, rfl⟩
  | infinity s =>
    refine (hinf ?_).elim
    show x.toModel.unpack.isInf = true
    rw [hu]
    rfl
  | notANumber => exact (hnan (Double.isNaN_iff.mpr hu)).elim

theorem Unsigned.isNaN_eq_false {x : Float} (hx : Unsigned x) : x.isNaN = false := by
  obtain ⟨d, hd, -⟩ := hx
  rw [← Bool.not_eq_true, Double.isNaN_iff]
  intro hnan
  rw [Double.ofFloat?_eq_dyadic?, hnan] at hd
  cases hd

theorem unsigned_or_neg {x : Float} {d : Dyadic} (h : Dyadic.ofFloat? x = some d) :
    Unsigned x ∨ ∃ y, Unsigned y ∧ x = -y := by
  cases hsign : d.negative with
  | false => exact .inl ⟨d, h, hsign⟩
  | true =>
    refine .inr ⟨-x, ⟨{ d with negative := false }, ?_, rfl⟩, (neg_neg x).symm⟩
    rw [ofFloat?_neg, h, Option.map_some, hsign]
    rfl

end Grammar

end Nabla
