import Nabla.Proofs.Code
import Nabla.Proofs.Lexemes
import Nabla.Proofs.Vocabulary

/-!
# The text of generated code

The text that is made of a finished expression can be read in exactly one way, and what is read has the
value of the expression. A literal below zero is written without brackets, so what is read is not the
code itself: there the literal is the opposite of another one.
-/

namespace Nabla

/-! ## What code is made of -/

/-- How code is made of the code of the operands. -/
inductive Emits (ps : List String) : Expr → Code → Prop
  | const x : Emits ps (.const x) (Code.ofFloat x)
  | var {name i} : LastAt ps name i → Emits ps (.var name) (.slot i)
  | neg {a x} : Emits ps a x → Emits ps (.neg a) (.negated x)
  | call f {a x} : Emits ps a x → Emits ps (.call f a) (.call f x)
  | binary op {a b x y} : Emits ps a x → Emits ps b y → Emits ps (.binary op a b) (.binary op x y)
  | powCall {a b x y} : Emits ps a x → Emits ps b y → Emits ps (.powCall a b) (.binary .pow x y)

theorem emits_of_emit {ps : List String} {e : Expr} (h : e.obstacle = none) {c : Code}
    (hc : e.emit ps = .ok c) : Emits ps e c := by
  induction e generalizing c with
  | const x =>
    obtain rfl : Code.ofFloat x = c := Except.ok.inj hc
    exact .const x
  | var name =>
    unfold Expr.emit at hc
    split at hc
    · rename_i i hi
      cases hc
      exact .var (lastIndex?_eq_some_iff.mp hi)
    · cases hc
  | neg a iha =>
    obtain ⟨x, hx, hc⟩ := bind_eq_ok_iff.mp hc
    cases hc
    exact .neg (iha h hx)
  | call f a iha =>
    obtain ⟨x, hx, hc⟩ := bind_eq_ok_iff.mp hc
    cases hc
    exact .call f (iha h hx)
  | binary op a b iha ihb =>
    obtain ⟨ha, hb⟩ := Expr.orElse_eq_none_iff.mp h
    obtain ⟨x, hx, hc⟩ := bind_eq_ok_iff.mp hc
    obtain ⟨y, hy, hc⟩ := bind_eq_ok_iff.mp hc
    cases hc
    exact .binary op (iha ha hx) (ihb hb hy)
  | powCall a b iha ihb =>
    obtain ⟨ha, hb⟩ := Expr.orElse_eq_none_iff.mp h
    obtain ⟨x, hx, hc⟩ := bind_eq_ok_iff.mp hc
    obtain ⟨y, hy, hc⟩ := bind_eq_ok_iff.mp hc
    cases hc
    exact .powCall (iha ha hx) (ihb hb hy)
  | unknown name a rest => cases hc
  | blank | pair | datum | oddVar => cases h

/-! ## What code is read as -/

namespace Code

open Grammar

/-- What the text of code is read as. -/
inductive Spells : Code → Phrase → Prop
  | literal {x} : Unsigned x → Spells (number x) (.literal x)
  | opposite {x} : Unsigned x → Spells (number (-x)) (.minus (.literal x))
  | nan : Spells nan .nan
  | infinity : Spells infinity .infinity
  | slot i : Spells (slot i) (.slot i)
  | negated {c t} : Spells c t → Spells (negated c) (.bracketed (.minus t))
  | operation {op a b t u} : op ∈ [BinOp.add, .sub, .mul] → Spells a t → Spells b u →
    Spells (binary op a b) (.bracketed (.operation op t u))
  | pairCall {op a b t u} : op ∈ [BinOp.div, .pow] → Spells a t → Spells b u →
    Spells (binary op a b) (.operation op t u)
  | call f {a t} : Spells a t → Spells (call f a) (.call f t)

theorem Spells.unique {c c' : Code} {t : Phrase} (h : Spells c t) (h' : Spells c' t) : c = c' := by
  induction h generalizing c' with
  | literal | opposite | nan | infinity | slot =>
    cases h'
    rfl
  | negated _ ih =>
    cases h' with
    | negated h' => rw [ih h']
  | operation _ _ _ iha ihb =>
    cases h' with
    | operation _ ha hb => rw [iha ha, ihb hb]
  | pairCall _ _ _ iha ihb =>
    cases h' with
    | pairCall _ ha hb => rw [iha ha, ihb hb]
  | call f _ ih =>
    cases h' with
    | call _ h' => rw [ih h']

theorem derives_sum_of_factor {ts : List String} {t : Phrase} (h : Derives .factor ts t) :
    Derives .sum ts t := by
  have hproduct : Derives .product (ts ++ []) t := .product h (.productEnd t)
  have hsum : Derives .sum (ts ++ [] ++ []) t := .sum hproduct (.sumEnd t)
  simpa using hsum

theorem derives_operation {op : BinOp} (hop : op ∈ [BinOp.add, .sub, .mul]) {ts us : List String}
    {t u : Phrase} (ht : Derives .factor ts t) (hu : Derives .factor us u) :
    Derives .sum (ts ++ op.symbol :: us) (.operation op t u) := by
  have hts : Derives .product (ts ++ []) t := .product ht (.productEnd t)
  have hus : Derives .product (us ++ []) u := .product hu (.productEnd u)
  rw [List.append_nil] at hts hus
  simp only [List.mem_cons, List.not_mem_nil, or_false, ← or_assoc] at hop
  rcases hop with hop | rfl
  · have hrest : Derives (.sumRest t) (op.symbol :: (us ++ [])) (.operation op t u) :=
      .sumMore hop hus (.sumEnd _)
    rw [List.append_nil] at hrest
    exact .sum hts hrest
  · have hrest : Derives (.productRest t) ("*" :: (us ++ [])) (.operation .mul t u) :=
      .productMore hu (.productEnd _)
    have hsum : Derives .sum (ts ++ "*" :: (us ++ []) ++ []) (.operation .mul t u) :=
      .sum (.product ht hrest) (.sumEnd _)
    simpa [BinOp.symbol] using hsum

theorem lexemes_word (w : String) (hw : isLexeme w.toList = true) {rest : List Char}
    (hrest : Closes rest) : lexemes (w.toList ++ rest) = w :: lexemes rest := by
  rw [lexemes_append hw hrest, String.ofList_toList]

theorem lexemes_np (w : String) (hw : isLexeme w.toList = true) {rest : List Char}
    (hrest : Closes rest) :
    lexemes (("np." ++ w).toList ++ rest) = "np" :: "." :: w :: lexemes rest := by
  have hpoint (cs : List Char) : lexemes ('n' :: 'p' :: '.' :: cs) = "np" :: "." :: lexemes cs :=
    congrArg ("np" :: ·) (lexemes_mark (c := '.') rfl rfl (by decide) cs)
  rw [String.toList_append, List.append_assoc, ← lexemes_word w hw hrest]
  exact hpoint _

theorem exists_routine (f : Fn) :
    ∃ w, routine f = "np." ++ w ∧ isLexeme w.toList = true ∧ library w = some (.unary f) := by
  refine ⟨String.ofList ((routine f).toList.drop 3), ?_⟩
  cases f <;> exact ⟨by decide, by decide, rfl⟩

theorem lexemes_symbol {op : BinOp} (hop : op ∈ [BinOp.add, .sub, .mul]) (rest : List Char) :
    lexemes (op.symbol.toList ++ ' ' :: rest) = op.symbol :: lexemes rest := by
  have hblank := congrArg (op.symbol :: ·) (lexemes_blank rest)
  simp only [List.mem_cons, List.not_mem_nil, or_false] at hop
  rcases hop with rfl | rfl | rfl <;> exact hblank

theorem Spells.derives {c : Code} {t : Phrase} (h : Spells c t) :
    ∃ ts, Derives .factor ts t ∧
      ∀ rest, Closes rest → lexemes (c.text.toList ++ rest) = ts ++ lexemes rest := by
  induction h with
  | literal hx =>
    obtain ⟨l, hl, hlex⟩ := lexemes_unsigned hx
    exact ⟨[l], .literal hl, hlex⟩
  | opposite hx =>
    obtain ⟨l, hl, hlex⟩ := lexemes_unsigned hx
    refine ⟨["-", l], .minus (.literal hl), fun rest hrest => ?_⟩
    rw [text, text_neg hx, List.cons_append, lexemes_mark rfl rfl (by decide), hlex rest hrest]
    rfl
  | nan => exact ⟨_, .named rfl, fun rest hrest => lexemes_np "nan" (by decide) hrest⟩
  | infinity => exact ⟨_, .named rfl, fun rest hrest => lexemes_np "inf" (by decide) hrest⟩
  | slot i =>
    have hwhole := Json.isWhole_digitsOf i
    have hnone : Json.NoDigit [] := by simp [Json.NoDigit]
    have hpart := Json.wholePart?_append hwhole hnone
    rw [List.append_nil] at hpart
    have hslot : Derives .factor ["values", "[", natText i, "]"] (.slot (Text.ofDigits _)) :=
      .slot (by rw [natText, String.toList_ofList]; exact hpart)
    rw [Json.ofDigits_digitsOf] at hslot
    refine ⟨_, hslot, fun rest hrest => ?_⟩
    have htext : (Code.slot i).text.toList ++ rest =
        "values".toList ++ '[' :: ((natText i).toList ++ ']' :: rest) := by
      simp [text]
    have hlexeme : isLexeme (natText i).toList = true := by
      obtain ⟨c, w, hcw, hc⟩ := hwhole.head
      rw [natText, String.toList_ofList, hcw]
      refine isLexeme_of_digit hc (continues_digits hc [] fun d hd => .inl ?_)
      exact Json.allDigits_digitsOf i d (hcw ▸ List.mem_cons_of_mem c hd)
    rw [htext, lexemes_word _ (by decide) (closes_cons _ (by decide)),
      lexemes_mark rfl rfl (by decide), lexemes_word _ hlexeme (closes_cons _ (by decide)),
      lexemes_mark rfl rfl (by decide)]
    rfl
  | @negated c t _ ih =>
    obtain ⟨ts, hts, hlex⟩ := ih
    refine ⟨_, .bracketed (derives_sum_of_factor (.minus hts)), fun rest hrest => ?_⟩
    have htext : c.negated.text.toList ++ rest = '(' :: '-' :: (c.text.toList ++ ')' :: rest) := by
      simp [text]
    rw [htext, lexemes_mark rfl rfl (by decide), lexemes_mark rfl rfl (by decide),
      hlex _ (closes_cons _ (by decide)), lexemes_mark rfl rfl (by decide)]
    simp
  | @operation op a b t u hop _ _ iha ihb =>
    obtain ⟨ts, hts, hlexa⟩ := iha
    obtain ⟨us, hus, hlexb⟩ := ihb
    refine ⟨_, .bracketed (derives_operation hop hts hus), fun rest hrest => ?_⟩
    have htext : (Code.binary op a b).text.toList ++ rest = '(' :: (a.text.toList ++ ' ' ::
        (op.symbol.toList ++ ' ' :: (b.text.toList ++ ')' :: rest))) := by
      simp only [List.mem_cons, List.not_mem_nil, or_false] at hop
      rcases hop with rfl | rfl | rfl <;> simp [text, binaryText]
    rw [htext, lexemes_mark rfl rfl (by decide), hlexa _ (closes_cons _ (by decide)), lexemes_blank,
      lexemes_symbol hop, hlexb _ (closes_cons _ (by decide)), lexemes_mark rfl rfl (by decide)]
    simp
  | @pairCall op a b t u hop _ _ iha ihb =>
    obtain ⟨ts, hts, hlexa⟩ := iha
    obtain ⟨us, hus, hlexb⟩ := ihb
    obtain ⟨w, hw, hlibrary, htext⟩ : ∃ w, isLexeme w.toList = true ∧ library w = some (.pair op) ∧
        ∀ rest, (Code.binary op a b).text.toList ++ rest = ("np." ++ w).toList ++
          '(' :: (a.text.toList ++ ',' :: ' ' :: (b.text.toList ++ ')' :: rest)) := by
      simp only [List.mem_cons, List.not_mem_nil, or_false] at hop
      rcases hop with rfl | rfl
      · exact ⟨"divide", by decide, rfl, fun rest => by simp [text, binaryText]⟩
      · exact ⟨"power", by decide, rfl, fun rest => by simp [text, binaryText]⟩
    refine ⟨_, .pairCall hlibrary (derives_sum_of_factor hts) (derives_sum_of_factor hus),
      fun rest hrest => ?_⟩
    rw [htext, lexemes_np w hw (closes_cons _ (by decide)), lexemes_mark rfl rfl (by decide),
      hlexa _ (closes_cons _ (by decide)), lexemes_mark rfl rfl (by decide), lexemes_blank,
      hlexb _ (closes_cons _ (by decide)), lexemes_mark rfl rfl (by decide)]
    simp
  | @call f a t _ ih =>
    obtain ⟨ts, hts, hlex⟩ := ih
    obtain ⟨w, hroutine, hw, hlibrary⟩ := exists_routine f
    refine ⟨_, .call hlibrary (derives_sum_of_factor hts), fun rest hrest => ?_⟩
    have htext : (Code.call f a).text.toList ++ rest =
        ("np." ++ w).toList ++ '(' :: (a.text.toList ++ ')' :: rest) := by
      rw [text, hroutine]
      simp
    rw [htext, lexemes_np w hw (closes_cons _ (by decide)), lexemes_mark rfl rfl (by decide),
      hlex _ (closes_cons _ (by decide)), lexemes_mark rfl rfl (by decide)]
    simp

theorem Spells.run_eq {c : Code} {t : Phrase} (h : Spells c t) {β : Type u} {I : Interp β}
    (hI : I.Negates) (values : List β) : t.run I values = c.run I values := by
  induction h with
  | literal | nan | infinity | slot => rfl
  | @opposite x hx =>
    rw [Code.run, hI x hx.isNaN_eq_false]
    rfl
  | negated _ ih | call f _ ih => simp only [Phrase.run, Code.run, ih]
  | operation _ _ _ iha ihb | pairCall _ _ _ iha ihb => simp only [Phrase.run, Code.run, iha, ihb]

theorem exists_spells_ofFloat (x : Float) : ∃ t, Spells (ofFloat x) t := by
  unfold ofFloat
  split_ifs with hnan hinf hpos
  · exact ⟨_, .nan⟩
  · exact ⟨_, .infinity⟩
  · exact ⟨_, .negated .infinity⟩
  · obtain ⟨d, hd⟩ := exists_dyadic hnan hinf
    rcases unsigned_or_neg hd with hx | ⟨y, hy, rfl⟩
    · exact ⟨_, .literal hx⟩
    · exact ⟨_, .opposite hy⟩

theorem exists_spells {ps : List String} {e : Expr} {c : Code} (h : Emits ps e c) :
    ∃ t, Spells c t := by
  induction h with
  | const x => exact exists_spells_ofFloat x
  | var => exact ⟨_, .slot _⟩
  | neg _ ih =>
    obtain ⟨t, ht⟩ := ih
    exact ⟨_, .negated ht⟩
  | call f _ ih =>
    obtain ⟨t, ht⟩ := ih
    exact ⟨_, .call f ht⟩
  | binary op _ _ iha ihb =>
    obtain ⟨t, ht⟩ := iha
    obtain ⟨u, hu⟩ := ihb
    cases op with
    | add | sub | mul => exact ⟨_, .operation (by decide) ht hu⟩
    | div | pow => exact ⟨_, .pairCall (by decide) ht hu⟩
  | powCall _ _ iha ihb =>
    obtain ⟨t, ht⟩ := iha
    obtain ⟨u, hu⟩ := ihb
    exact ⟨_, .pairCall (by decide) ht hu⟩

theorem Spells.derives_iff {c : Code} {t u : Phrase} (h : Spells c t) :
    Derives .sum (lexemes c.text.toList) u ↔ u = t := by
  obtain ⟨ts, hts, hlex⟩ := h.derives
  have htext := hlex [] closes_nil
  rw [List.append_nil, show lexemes [] = [] from rfl, List.append_nil] at htext
  rw [htext]
  have hsum := derives_sum_of_factor hts
  constructor
  · intro hu
    exact (hu.unique hsum rfl (r := []) (s := []) (by simp [Stops]) (by simp [Stops])).2
  · rintro rfl
    exact hsum

end Code

/-! ## Expressions with the same text -/

namespace Expr

/-- The tree with the power always as an operator, and minus infinity as the negation of infinity. -/
def respelled : Expr → Expr
  | const x => if x.isInf ∧ ¬ 0 < x then neg (const (1.0 / 0.0)) else const x
  | neg a => neg (respelled a)
  | binary op a b => binary op (respelled a) (respelled b)
  | call f a => call f (respelled a)
  | powCall a b => binary .pow (respelled a) (respelled b)
  | var x => var x
  | unknown n a rest => unknown n a rest
  | blank => blank
  | pair a b => pair a b
  | datum j => datum j
  | oddVar n => oddVar n

theorem evalWith_respelled {β : Type u} {I : Interp β} (hI : I.Negates) (ρ : String → Option β)
    (e : Expr) : e.respelled.evalWith I ρ = e.evalWith I ρ := by
  induction e with
  | const x =>
    unfold respelled
    split_ifs with hx
    · rw [evalWith, Double.eq_neg_infinity hx.1 hx.2, hI _ (by decide +kernel)]
      rfl
    · rfl
  | neg a iha | call f a iha => rw [respelled, evalWith, evalWith, iha]
  | binary op a b iha ihb | powCall a b iha ihb => rw [respelled, evalWith, evalWith, iha, ihb]
  | var | unknown | blank | pair | datum | oddVar => rfl

end Expr

/-- The expression that code was made of, but for its spelling. -/
def Code.source (ps : List String) : Code → Expr
  | number x => .const x
  | nan => .const (0.0 / 0.0)
  | infinity => .const (1.0 / 0.0)
  | slot i => .var (ps.getD i "")
  | negated c => .neg (c.source ps)
  | binary op a b => .binary op (a.source ps) (b.source ps)
  | call f a => .call f (a.source ps)
  | adjacent a b => .pair (a.source ps) (b.source ps)

namespace Code

theorem source_ofFloat (ps : List String) (x : Float) :
    (ofFloat x).source ps = (Expr.const x).respelled := by
  unfold ofFloat
  split_ifs with hnan hinf hpos
  · have hinf : ¬ x.isInf = true := by
      intro hinf
      obtain ⟨s, hs⟩ := Double.unpack_of_isInf hinf
      cases hs.symm.trans (Double.unpack_of_isNaN hnan)
    rw [Expr.respelled, if_neg fun h => hinf h.1, Double.eq_nan hnan]
    rfl
  · rw [Expr.respelled, if_neg fun h => h.2 hpos, Double.eq_infinity hinf hpos]
    rfl
  · rw [Expr.respelled, if_pos ⟨hinf, hpos⟩]
    rfl
  · rw [Expr.respelled, if_neg fun h => hinf h.1]
    rfl

theorem source_of_emits {ps : List String} {e : Expr} {c : Code} (h : Emits ps e c) :
    c.source ps = e.respelled := by
  induction h with
  | const x => exact source_ofFloat ps x
  | var hlast =>
    rw [source, List.getD_eq_getElem?_getD, hlast.1]
    rfl
  | neg _ ih | call f _ ih => rw [source, Expr.respelled, ih]
  | binary op _ _ iha ihb | powCall _ _ iha ihb => rw [source, Expr.respelled, iha, ihb]

theorem run_of_emits {β : Type u} {I : Interp β} (hI : I.Negates) {ps : List String}
    {values : List β} (hcover : ps.length ≤ values.length) {e : Expr} {c : Code}
    (h : Emits ps e c) : c.run I values = e.evalWith I (Table.ofPairs (ps.zip values)).find? := by
  induction h with
  | const x => exact run_ofFloat hI x values
  | var hlast =>
    have hlt := hlast.lt.trans_le hcover
    rw [run, Expr.evalWith, Table.find?_ofPairs_of_lastAt hlast hlt, List.getElem?_eq_getElem hlt]
  | neg _ ih | call f _ ih => rw [run, Expr.evalWith, ih]
  | binary op _ _ iha ihb | powCall _ _ iha ihb => rw [run, Expr.evalWith, iha, ihb]

end Code

open Grammar in
/-- The text of the code of a finished expression can be read in exactly one way. What is read has the
value of the expression, with values for all parameters and wherever the constant of an opposite number
is the negation of the constant. So expressions with the same text have the same values; they are the
same but for how powers and minus infinity are spelled. -/
theorem emitted_text_is_faithful {ps : List String} {e : Expr} (he : e.WellFormed) {c : Code}
    (hc : e.emit ps = .ok c) :
    (∃! t, Derives .sum (lexemes c.text.toList) t) ∧
    (∀ t, Derives .sum (lexemes c.text.toList) t → ∀ {β : Type u} (I : Interp β), I.Negates →
      ∀ values : List β, ps.length ≤ values.length →
        t.run I values = e.evalWith I (Table.ofPairs (ps.zip values)).find?) ∧
    ∀ (e' : Expr) (c' : Code), e'.WellFormed → e'.emit ps = .ok c' → c'.text = c.text →
      e'.respelled = e.respelled ∧ ∀ {β : Type u} (I : Interp β), I.Negates →
        ∀ ρ, e'.evalWith I ρ = e.evalWith I ρ := by
  have hmade : Emits ps e c := emits_of_emit he.obstacle_eq_none hc
  obtain ⟨t, ht⟩ := Code.exists_spells hmade
  refine ⟨⟨t, ht.derives_iff.mpr rfl, fun u hu => ht.derives_iff.mp hu⟩, ?_, ?_⟩
  · intro u hu β I hI values hcover
    rw [ht.derives_iff.mp hu, ht.run_eq hI, Code.run_of_emits hI hcover hmade]
  · intro e' c' he' hc' htext
    have hmade' : Emits ps e' c' := emits_of_emit he'.obstacle_eq_none hc'
    obtain ⟨t', ht'⟩ := Code.exists_spells hmade'
    have hread : t' = t := ht.derives_iff.mp (htext ▸ ht'.derives_iff.mpr rfl)
    subst hread
    have hspelled : e'.respelled = e.respelled := by
      rw [← Code.source_of_emits hmade, ← Code.source_of_emits hmade', ht.unique ht']
    refine ⟨hspelled, fun I hI ρ => ?_⟩
    rw [← Expr.evalWith_respelled hI, hspelled, Expr.evalWith_respelled hI]

open Grammar in
/-- Signs stand side by side, and the place is the last one of a repeated parameter. -/
theorem emitted_text_is_faithful_signs :
    let e : Expr := .add (.neg (.const (-2))) (.sub (.var "x") (.const (-1e-07)))
    e.WellFormed ∧ ∃ c, e.emit ["x", "x"] = .ok c ∧ c.text = "((--2.0) + (values[1] - -1e-07))" ∧
      (∃! t, Derives .sum (lexemes c.text.toList) t) ∧
      (∀ t, Derives .sum (lexemes c.text.toList) t →
        t.run (.scalar .double id) [5, 7] = .ok (- -2 + (7 - -1e-07))) ∧
      Interp.Negates (.scalar .double id) := by
  intro e
  have he : e.WellFormed := by simp [e, Expr.add, Expr.sub, Expr.WellFormed]
  have hfinite (x : Float) (hnan : x.isNaN = false) (hinf : x.isInf = false) :
      Code.ofFloat x = .number x := by
    rw [Code.ofFloat, hnan, hinf]
    rfl
  have hc : e.emit ["x", "x"] = .ok (.binary .add (.negated (.number (-2)))
      (.binary .sub (.slot 1) (.number (-1e-07)))) := by
    rw [← hfinite (-2) (by decide +kernel) (by decide +kernel),
      ← hfinite (-1e-07) (by decide +kernel) (by decide +kernel)]
    rfl
  have hI : Interp.Negates (.scalar .double id) := fun _ _ => rfl
  obtain ⟨hunique, hvalue, -⟩ := emitted_text_is_faithful he hc
  refine ⟨he, _, hc, by decide +kernel, hunique, fun t ht => ?_, hI⟩
  exact hvalue t ht _ hI [5, 7] le_rfl

end Nabla
