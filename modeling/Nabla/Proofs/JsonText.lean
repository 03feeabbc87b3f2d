import Nabla.Proofs.NumberText

/-!
# JSON text reads back

A text is escaped character by character, and read unit by unit: the two units of a pair are put
together again. Values are read by what they start with; a separator or a bracket ends them, so each
part of a list or a record is read apart.
-/

namespace Nabla

namespace Table

variable {α : Type}

theorem set_of_not_mem {t : Table α} {name : String} (h : name ∉ t.keys) (a : α) :
    t.set name a = t ++ [(name, a)] := by
  induction t with
  | nil => rfl
  | cons p t ih =>
    obtain ⟨key, b⟩ := p
    rw [keys_cons, List.mem_cons, not_or] at h
    rw [set, if_neg (Ne.symm h.1), ih h.2, List.cons_append]

theorem foldl_set_of_nodup {t pairs : Table α} (h : (t.keys ++ pairs.keys).Nodup) :
    pairs.foldl (fun t p => t.set p.1 p.2) t = t ++ pairs := by
  induction pairs generalizing t with
  | nil => exact (List.append_nil t).symm
  | cons p pairs ih =>
    have hp : p.1 ∉ t.keys := fun hmem =>
      (List.nodup_append.mp h).2.2 _ hmem _ List.mem_cons_self rfl
    rw [List.foldl_cons, set_of_not_mem hp, ih, List.append_assoc, List.singleton_append]
    have hkeys : keys (t ++ [(p.1, p.2)]) ++ keys pairs = t.keys ++ keys (p :: pairs) := by
      simp [keys]
    rw [hkeys]
    exact h

theorem ofPairs_of_nodup {pairs : Table α} (h : pairs.keys.Nodup) : ofPairs pairs = pairs :=
  foldl_set_of_nodup h

end Table

namespace Json

/-! ## Texts -/

/-- The UTF-16 units of a character. -/
def unitsOf (c : Char) : List Nat :=
  if c.toNat < 0x10000 then [c.toNat]
  else [0xd800 + (c.toNat - 0x10000) / 0x400, 0xdc00 + (c.toNat - 0x10000) % 0x400]

theorem toNat_cases (c : Char) :
    c.toNat < 0xd800 ∨ 0xdfff < c.toNat ∧ c.toNat < 0x110000 := c.valid

theorem hexValue?_hexDigit {d : Nat} (h : d < 16) : hexValue? (Text.hexDigit d) = some d := by
  have hall : ∀ i : Fin 16, hexValue? (Text.hexDigit i) = some i.val := by decide
  exact hall ⟨d, h⟩

theorem units?_escapeUnit {n : Nat} (h : n < 0x10000) (rest : List Char) :
    units? (escapeUnit n ++ rest) = (units? rest).map fun (us, rest) => (n :: us, rest) := by
  have h₁ : n / 16 / 16 / 16 % 16 < 16 := Nat.mod_lt _ (by decide)
  have h₂ : n / 16 / 16 % 16 < 16 := Nat.mod_lt _ (by decide)
  have h₃ : n / 16 % 16 < 16 := Nat.mod_lt _ (by decide)
  have h₄ : n % 16 < 16 := Nat.mod_lt _ (by decide)
  have hunit : unit? (Text.hexDigit (n / 16 / 16 / 16 % 16)) (Text.hexDigit (n / 16 / 16 % 16))
      (Text.hexDigit (n / 16 % 16)) (Text.hexDigit (n % 16)) = some n := by
    simp only [unit?, hexValue?_hexDigit h₁, hexValue?_hexDigit h₂, hexValue?_hexDigit h₃,
      hexValue?_hexDigit h₄, Option.some.injEq]
    omega
  show units? ('\\' :: 'u' :: _ :: _ :: _ :: _ :: rest) = _
  rw [units?, hunit]
  cases units? rest <;> rfl

theorem units?_escaped {c : Char} {u : Nat} (hc : c ≠ 'u') (hu : escaped? c = some u)
    (rest : List Char) :
    units? ('\\' :: c :: rest) = (units? rest).map fun (us, rest) => (u :: us, rest) := by
  rw [units?]
  · rw [hu]
    cases units? rest <;> rfl
  · intro _ _ _ _ _ hcu
    exact absurd hcu hc

theorem units?_plain {c : Char} (hquote : c ≠ '"') (hslash : c ≠ '\\') (hc : 0x20 ≤ c.toNat)
    (rest : List Char) :
    units? (c :: rest) = (units? rest).map fun (us, rest) => (c.toNat :: us, rest) := by
  rw [units?]
  · rw [if_neg (by omega)]
    cases units? rest <;> rfl
  · exact hquote
  · exact fun _ _ _ _ _ h => absurd h hslash
  · exact fun _ _ h => absurd h hslash

theorem unitsOf_of_lt {c : Char} (h : c.toNat < 0x10000) : unitsOf c = [c.toNat] := if_pos h

theorem units?_escapeChar (c : Char) (rest : List Char) :
    units? (escapeChar c ++ rest) =
      (units? rest).map fun (us, rest) => (unitsOf c ++ us, rest) := by
  unfold escapeChar
  dsimp only
  split_ifs with h₁ h₂ h₃ h₄ h₅ h₆ h₇ h₈ h₉
  · obtain rfl := beq_iff_eq.mp h₁
    exact units?_escaped (by decide) rfl rest
  · obtain rfl := beq_iff_eq.mp h₂
    exact units?_escaped (by decide) rfl rest
  · obtain rfl := beq_iff_eq.mp h₃
    exact units?_escaped (by decide) rfl rest
  · obtain rfl := beq_iff_eq.mp h₄
    exact units?_escaped (by decide) rfl rest
  · obtain rfl := beq_iff_eq.mp h₅
    exact units?_escaped (by decide) rfl rest
  · rw [beq_iff_eq] at h₆
    rw [unitsOf_of_lt (by omega), h₆]
    exact units?_escaped (by decide) rfl rest
  · rw [beq_iff_eq] at h₇
    rw [unitsOf_of_lt (by omega), h₇]
    exact units?_escaped (by decide) rfl rest
  · rw [Bool.and_eq_true, decide_eq_true_eq, decide_eq_true_eq] at h₈
    rw [unitsOf_of_lt (by omega)]
    exact units?_plain (fun h => h₁ (beq_iff_eq.mpr h)) (fun h => h₂ (beq_iff_eq.mpr h)) h₈.1 rest
  · rw [unitsOf_of_lt h₉]
    exact units?_escapeUnit h₉ rest
  · -- A pair of units.
    have hc := toNat_cases c
    rw [unitsOf, if_neg h₉, List.append_assoc, units?_escapeUnit (by omega),
      units?_escapeUnit (by omega)]
    cases units? rest <;> rfl

theorem units?_escape (cs rest : List Char) :
    units? (cs.flatMap escapeChar ++ '"' :: rest) = some (cs.flatMap unitsOf, rest) := by
  induction cs with
  | nil => rfl
  | cons c cs ih => rw [List.flatMap_cons, List.append_assoc, units?_escapeChar, ih]; rfl

theorem charOf_toNat (c : Char) : charOf c.toNat = c := by
  unfold charOf
  rw [if_pos (show c.toNat.isValidChar from c.valid), Char.ofNat_toNat]

theorem joinUnits_cons {u : Nat} (h : isHighUnit u = false) (us : List Nat) :
    joinUnits (u :: us) = charOf u :: joinUnits us := by
  cases us with
  | nil => rfl
  | cons v us => rw [joinUnits, h, Bool.false_and, if_neg Bool.false_ne_true]

theorem joinUnits_unitsOf (c : Char) (us : List Nat) :
    joinUnits (unitsOf c ++ us) = c :: joinUnits us := by
  have hc := toNat_cases c
  unfold unitsOf
  split_ifs with h
  · have hhigh : isHighUnit c.toNat = false := by
      simp only [isHighUnit, Bool.and_eq_false_iff, decide_eq_false_iff_not]
      omega
    rw [List.singleton_append, joinUnits_cons hhigh, charOf_toNat]
  · have hpair : isHighUnit (0xd800 + (c.toNat - 0x10000) / 0x400) = true ∧
        isLowUnit (0xdc00 + (c.toNat - 0x10000) % 0x400) = true := by
      simp only [isHighUnit, isLowUnit, Bool.and_eq_true, decide_eq_true_eq]
      omega
    have hsum : 0x10000 + (0xd800 + (c.toNat - 0x10000) / 0x400 - 0xd800) * 0x400 +
        (0xdc00 + (c.toNat - 0x10000) % 0x400 - 0xdc00) = c.toNat := by
      omega
    show joinUnits (_ :: _ :: us) = _
    rw [joinUnits, hpair.1, hpair.2, Bool.and_self, if_pos rfl, hsum, charOf_toNat]

theorem joinUnits_flatMap (cs : List Char) : joinUnits (cs.flatMap unitsOf) = cs := by
  induction cs with
  | nil => rfl
  | cons c cs ih => rw [List.flatMap_cons, joinUnits_unitsOf, ih]

theorem readText_printString (s : String) :
    ∃ cs, printString s = '"' :: cs ∧ ∀ rest, readText (cs ++ rest) = .ok (s, rest) := by
  refine ⟨s.toList.flatMap escapeChar ++ ['"'], rfl, fun rest => ?_⟩
  unfold readText
  rw [List.append_assoc, List.singleton_append, units?_escape]
  simp only [joinUnits_flatMap, String.ofList_toList]

/-! ## Values -/

mutual

/-- No record has a name twice, and no whole number is too long to be read. -/
def Readable : Json → Prop
  | int n => (Text.digitsOf n.natAbs).length ≤ Decimal.digitLimit
  | arr items => AllReadable items
  | obj fields => (Table.keys fields).Nodup ∧ FieldsReadable fields
  | null | bool _ | float _ | str _ => True

def AllReadable : List Json → Prop
  | [] => True
  | item :: rest => Readable item ∧ AllReadable rest

def FieldsReadable : List (String × Json) → Prop
  | [] => True
  | (_, value) :: rest => Readable value ∧ FieldsReadable rest

end

/-- The text of a value starts with neither a blank nor a closing bracket, and it is read as the
value whatever follows. -/
structure Reads (j : Json) : Prop where
  starts : ∃ c cs, j.print = c :: cs ∧ isBlank c = false ∧ c ≠ ']'
  read : ∀ fuel rest, j.print.length ≤ fuel → Ends rest →
    readValue fuel (j.print ++ rest) = .ok (j, rest)

theorem skipBlank_cons {c : Char} (cs : List Char) (h : isBlank c = false) :
    skipBlank (c :: cs) = c :: cs := by
  rw [skipBlank, List.dropWhile_cons, h, if_neg Bool.false_ne_true]

theorem reads_of_cons {j : Json} {c : Char} {cs : List Char} (hprint : j.print = c :: cs)
    (hblank : isBlank c = false) (hclose : c ≠ ']')
    (h : ∀ fuel rest, cs.length ≤ fuel → Ends rest →
      readValue (fuel + 1) (c :: (cs ++ rest)) = .ok (j, rest)) : j.Reads := by
  refine ⟨⟨c, cs, hprint, hblank, hclose⟩, fun fuel rest hfuel hrest => ?_⟩
  rw [hprint] at hfuel ⊢
  cases fuel with
  | zero => cases hfuel
  | succ fuel => exact h fuel rest (Nat.le_of_succ_le_succ hfuel) hrest

theorem readAtom_of_mark {c : Char} (h : c ∈ ['"', '[', '{', ']', ' ', '\t', '\n', '\r'])
    (cs : List Char) : readAtom (c :: cs) = .error .malformedJson := by
  simp only [List.mem_cons, List.not_mem_nil, or_false] at h
  rcases h with rfl | rfl | rfl | rfl | rfl | rfl | rfl | rfl <;> rfl

theorem reads_of_readAtom {j : Json}
    (h : ∀ rest, Ends rest → readAtom (j.print ++ rest) = .ok (j, rest)) : j.Reads := by
  have hnil : Ends [] := fun c hc => nomatch hc
  cases hprint : j.print with
  | nil =>
    have herror := h [] hnil
    rw [hprint] at herror
    cases herror
  | cons c cs =>
    have hmark : c ∉ ['"', '[', '{', ']', ' ', '\t', '\n', '\r'] := by
      intro hc
      have herror := h [] hnil
      rw [hprint, List.cons_append, readAtom_of_mark hc] at herror
      cases herror
    simp only [List.mem_cons, List.not_mem_nil, or_false, not_or] at hmark
    obtain ⟨hquote, hlist, hrecord, hclose, hspace, htab, hline, hreturn⟩ := hmark
    have hblank : isBlank c = false := by simp [isBlank, hspace, htab, hline, hreturn]
    refine reads_of_cons hprint hblank hclose fun fuel rest _ hrest => ?_
    rw [← h rest hrest, hprint, List.cons_append, readValue]
    · exact fun _ heq => hquote (List.cons.inj heq).1
    · exact fun _ heq => hlist (List.cons.inj heq).1
    · exact fun _ heq => hrecord (List.cons.inj heq).1

theorem reads_str (s : String) : (str s).Reads := by
  obtain ⟨cs, hcs, hread⟩ := readText_printString s
  refine reads_of_cons hcs rfl (by decide) fun fuel rest _ _ => ?_
  rw [readValue, hread]
  rfl

/-! ## Lists -/

theorem ends_cons {c : Char} (cs : List Char) (h : c = ',' ∨ c = ']' ∨ c = '}') :
    Ends (c :: cs) := by
  intro c' hc'
  cases hc'
  exact h

theorem joinComma_head {c : Char} (cs : List Char) (rest : List (List Char)) :
    ∃ tail, joinComma ((c :: cs) :: rest) = c :: tail := by
  cases rest with
  | nil => exact ⟨cs, rfl⟩
  | cons cs' rest => exact ⟨cs ++ ',' :: ' ' :: joinComma (cs' :: rest), rfl⟩

theorem starts_items {item : Json} (h : item.Reads) (items : List Json) :
    ∃ c cs, joinComma (printItems (item :: items)) = c :: cs ∧ isBlank c = false ∧ c ≠ ']' := by
  obtain ⟨c, cs, hcs, hblank, hclose⟩ := h.starts
  rw [printItems, hcs]
  obtain ⟨tail, htail⟩ := joinComma_head (c := c) cs (printItems items)
  exact ⟨c, tail, htail, hblank, hclose⟩

theorem skipBlank_space {c : Char} {cs : List Char} (hblank : isBlank c = false) :
    skipBlank (' ' :: c :: cs) = c :: cs :=
  skipBlank_cons cs hblank

theorem readItems_print {item : Json} {items : List Json} (h : ∀ x ∈ item :: items, x.Reads)
    {fuel : Nat} (rest : List Char)
    (hfuel : (joinComma (printItems (item :: items))).length < fuel) :
    readItems fuel (joinComma (printItems (item :: items)) ++ ']' :: rest) =
      .ok (item :: items, rest) := by
  induction items generalizing item fuel with
  | nil =>
    obtain ⟨fuel, rfl⟩ : ∃ n, fuel = n + 1 := ⟨fuel - 1, by omega⟩
    have hread := (h item List.mem_cons_self).read fuel (']' :: rest) (Nat.le_of_lt_succ hfuel)
      (ends_cons _ (by decide))
    show readItems (fuel + 1) (item.print ++ ']' :: rest) = _
    rw [readItems, hread]
    rfl
  | cons next items ih =>
    obtain ⟨fuel, rfl⟩ : ∃ n, fuel = n + 1 := ⟨fuel - 1, by omega⟩
    obtain ⟨hitem, hitems⟩ := List.forall_mem_cons.mp h
    obtain ⟨c, cs, hcs, hblank, -⟩ := starts_items (hitems next List.mem_cons_self) items
    have hjoin : joinComma (printItems (item :: next :: items)) =
        item.print ++ ',' :: ' ' :: joinComma (printItems (next :: items)) := rfl
    rw [hjoin, List.length_append, List.length_cons, List.length_cons] at hfuel
    have hrest := @ih next hitems fuel (by omega)
    rw [hcs] at hjoin hrest
    have hread := hitem.read fuel (',' :: ' ' :: (c :: cs ++ ']' :: rest)) (by omega)
      (ends_cons _ (by decide))
    rw [hjoin, List.append_assoc]
    show readItems (fuel + 1) (item.print ++ ',' :: ' ' :: (c :: cs ++ ']' :: rest)) = _
    rw [readItems, hread]
    show (readItems fuel (skipBlank (' ' :: c :: (cs ++ ']' :: rest))) >>= _) = _
    rw [skipBlank_space hblank, ← List.cons_append, hrest]
    rfl

theorem reads_arr {items : List Json} (h : ∀ x ∈ items, x.Reads) : (arr items).Reads := by
  have hprint : (arr items).print = '[' :: (joinComma (printItems items) ++ [']']) := rfl
  refine reads_of_cons hprint rfl (by decide) fun fuel rest hfuel _ => ?_
  rw [List.length_append, List.length_singleton] at hfuel
  rw [List.append_assoc, List.singleton_append, readValue]
  cases items with
  | nil => rfl
  | cons item items =>
    obtain ⟨c, cs, hcs, hblank, hclose⟩ := starts_items (h item List.mem_cons_self) items
    have hitems := readItems_print h rest hfuel
    rw [hcs, List.cons_append] at hitems ⊢
    rw [skipBlank_cons _ hblank]
    split
    · rename_i heq
      exact absurd (List.cons.inj heq).1 hclose
    · rw [hitems]
      rfl

/-! ## Records -/

theorem readFields_field (key : String) {value : Json} (h : value.Reads) {fuel : Nat}
    (hfuel : value.print.length ≤ fuel) {rest : List Char} (hrest : Ends rest) :
    readFields (fuel + 1) (printString key ++ ':' :: ' ' :: value.print ++ rest) =
      match skipBlank rest with
      | '}' :: rest => .ok ([(key, value)], rest)
      | ',' :: rest => do
        let (fs, rest) ← readFields fuel (skipBlank rest)
        return ((key, value) :: fs, rest)
      | _ => .error .malformedJson := by
  obtain ⟨text, htext, hkey⟩ := readText_printString key
  obtain ⟨c, cs, hcs, hblank, -⟩ := h.starts
  have hvalue := h.read fuel rest hfuel hrest
  rw [hcs] at hvalue ⊢
  rw [htext, List.append_assoc, List.cons_append, List.cons_append, List.cons_append]
  rw [readFields, hkey]
  show (readValue fuel (skipBlank (' ' :: c :: (cs ++ rest))) >>= _) = _
  rw [skipBlank_space hblank, ← List.cons_append, hvalue]
  rfl

theorem starts_fields (field : String × Json) (fields : List (String × Json)) :
    ∃ cs, joinComma (printFields (field :: fields)) = '"' :: cs :=
  joinComma_head _ _

theorem readFields_print {field : String × Json} {fields : List (String × Json)}
    (h : ∀ p ∈ field :: fields, p.2.Reads) {fuel : Nat} (rest : List Char)
    (hfuel : (joinComma (printFields (field :: fields))).length < fuel) :
    readFields fuel (joinComma (printFields (field :: fields)) ++ '}' :: rest) =
      .ok (field :: fields, rest) := by
  induction fields generalizing field fuel with
  | nil =>
    obtain ⟨fuel, rfl⟩ : ∃ n, fuel = n + 1 := ⟨fuel - 1, by omega⟩
    obtain ⟨key, value⟩ := field
    have hvalue : value.Reads := h (key, value) List.mem_cons_self
    have hjoin : joinComma (printFields [(key, value)]) =
        printString key ++ ':' :: ' ' :: value.print := rfl
    rw [hjoin] at hfuel ⊢
    rw [List.length_append, List.length_cons, List.length_cons] at hfuel
    rw [readFields_field key hvalue (by omega) (ends_cons _ (by decide))]
    rfl
  | cons next fields ih =>
    obtain ⟨fuel, rfl⟩ : ∃ n, fuel = n + 1 := ⟨fuel - 1, by omega⟩
    obtain ⟨key, value⟩ := field
    have hvalue : value.Reads := h (key, value) List.mem_cons_self
    have hfields : ∀ p ∈ next :: fields, p.2.Reads := fun p hp => h p (List.mem_cons_of_mem _ hp)
    have hjoin : joinComma (printFields ((key, value) :: next :: fields)) =
        printString key ++ ':' :: ' ' :: value.print ++
          ',' :: ' ' :: joinComma (printFields (next :: fields)) := rfl
    rw [hjoin] at hfuel ⊢
    simp only [List.length_append, List.length_cons] at hfuel
    have hrest := @ih next hfields fuel (by omega)
    obtain ⟨cs, hcs⟩ := starts_fields next fields
    rw [hcs, List.cons_append] at hrest
    rw [hcs, List.append_assoc, List.cons_append,
      readFields_field key hvalue (by omega) (ends_cons _ (by decide))]
    show (readFields fuel (skipBlank (' ' :: '"' :: (cs ++ '}' :: rest))) >>= _) = _
    rw [skipBlank_space rfl, hrest]
    rfl

theorem reads_obj {fields : List (String × Json)} (hkeys : (Table.keys fields).Nodup)
    (h : ∀ p ∈ fields, p.2.Reads) : (obj fields).Reads := by
  have hprint : (obj fields).print = '{' :: (joinComma (printFields fields) ++ ['}']) := rfl
  refine reads_of_cons hprint rfl (by decide) fun fuel rest hfuel _ => ?_
  rw [List.length_append, List.length_singleton] at hfuel
  rw [List.append_assoc, List.singleton_append, readValue]
  cases fields with
  | nil => rfl
  | cons field fields =>
    have hfields := readFields_print h rest hfuel
    obtain ⟨cs, hcs⟩ := starts_fields field fields
    rw [hcs, List.cons_append] at hfields ⊢
    rw [skipBlank_cons _ rfl]
    show (readFields fuel ('"' :: (cs ++ '}' :: rest)) >>= _) = _
    rw [hfields]
    show Except.ok (obj (Table.ofPairs (field :: fields)), rest) = _
    rw [Table.ofPairs_of_nodup hkeys]

/-! ## Reading back -/

@[elab_as_elim]
theorem induction {motive : Json → Prop} (null : motive null) (bool : ∀ b, motive (bool b))
    (int : ∀ n, motive (int n)) (float : ∀ x, motive (float x)) (str : ∀ s, motive (str s))
    (arr : ∀ items, (∀ x ∈ items, motive x) → motive (arr items))
    (obj : ∀ fields : List (String × Json), (∀ p ∈ fields, motive p.2) → motive (obj fields))
    (j : Json) : motive j :=
  @Json.rec motive (fun items => ∀ x ∈ items, motive x)
    (fun fields => ∀ p ∈ fields, motive p.2) (fun p => motive p.2) null bool int float str arr obj
    (fun _ h => nomatch h) (fun _ _ hx hxs => List.forall_mem_cons.mpr ⟨hx, hxs⟩)
    (fun _ h => nomatch h) (fun _ _ hp hps => List.forall_mem_cons.mpr ⟨hp, hps⟩)
    (fun _ _ h => h) j

theorem AllReadable.of_mem {items : List Json} (h : AllReadable items) {x : Json} (hx : x ∈ items) :
    x.Readable := by
  induction items with
  | nil => cases hx
  | cons item items ih =>
    rcases List.mem_cons.mp hx with rfl | hx
    · exact h.1
    · exact ih h.2 hx

theorem FieldsReadable.of_mem {fields : List (String × Json)} (h : FieldsReadable fields)
    {p : String × Json} (hp : p ∈ fields) : p.2.Readable := by
  induction fields with
  | nil => cases hp
  | cons field fields ih =>
    rcases List.mem_cons.mp hp with rfl | hp
    · exact h.1
    · exact ih h.2 hp

theorem reads {j : Json} (h : j.Readable) : j.Reads := by
  induction j using Json.induction with
  | null => exact reads_of_readAtom fun rest _ => rfl
  | bool b => cases b <;> exact reads_of_readAtom fun rest _ => rfl
  | int n => exact reads_of_readAtom fun rest hrest => readAtom_intText h hrest
  | float x => exact reads_of_readAtom fun rest hrest => readAtom_printFloat x hrest
  | str s => exact reads_str s
  | arr items ih => exact reads_arr fun x hx => ih x hx (AllReadable.of_mem h hx)
  | obj fields ih => exact reads_obj h.1 fun p hp => ih p hp (FieldsReadable.of_mem h.2 hp)

/-- What is written is read as it was. -/
theorem parse_render {j : Json} (h : j.Readable) : parse j.render = .ok j := by
  obtain ⟨⟨c, cs, hcs, hblank, -⟩, hread⟩ := reads h
  have hfinal := hread (j.print.length + 1) [] (Nat.le_succ _) fun c hc => nomatch hc
  rw [List.append_nil] at hfinal
  unfold parse render
  rw [String.toList_ofList]
  have hskip : skipBlank j.print = j.print := by
    rw [hcs, skipBlank_cons _ hblank]
  simp only [hskip, hfinal]
  rfl

end Json

end Nabla
