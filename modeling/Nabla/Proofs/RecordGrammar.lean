import Nabla.Proofs.Keys
import Nabla.Proofs.Numbers
import Nabla.Proofs.RoundTrip

/-!
# The records of expressions

Which values can be read as expressions is said by a grammar, without the reader: a record of each
type has its fields, a call as many arguments as its function takes, and whatever else a record holds
is ignored. Reading accepts the values of the grammar and no others. Writing what was read gives the
same record in its plain form, which is read and written as it stands.
-/

namespace Nabla

namespace Callee

theorem ofName_eq_unary_iff {name : String} {f : Fn} :
    ofName name = unary f ↔ name = f.name ∨ name = f.title := by
  constructor
  · intro h
    unfold ofName at h
    split at h
    · rename_i g hg
      cases h
      simpa using List.find?_some hg
    · split_ifs at h
  · rintro (rfl | rfl) <;> simp [ofName]

theorem ofName_eq_pow_iff {name : String} : ofName name = pow ↔ name = powName ∨ name = powTitle := by
  constructor
  · intro h
    unfold ofName at h
    split at h
    · cases h
    · split_ifs at h with hname
      exact hname
  · rintro (rfl | rfl) <;> decide

end Callee

namespace Expr

/-! ## The grammar -/

/-- How many arguments a function takes: the power two, any other known function one, and an unknown
one at least one. A known function has two names. -/
structure Takes (name : String) (n : Nat) : Prop where
  pos : 0 < n
  pow : name = Callee.powName ∨ name = Callee.powTitle → n = 2
  known : ∀ f : Fn, name = f.name ∨ name = f.title → n = 1

/-- The least set of values that are records of expressions. A record may have other fields too. -/
inductive IsNode : Json → Prop where
  | const {fields : Table Json} {v : Json} {x : Float}
    (htype : fields.find? "type" = some (.str "Const")) (hvalue : fields.find? "value" = some v)
    (hx : v.toFloat = .ok x) : IsNode (.obj fields)
  | var {fields : Table Json} {name : String} (htype : fields.find? "type" = some (.str "Var"))
    (hname : fields.find? "name" = some (.str name)) : IsNode (.obj fields)
  | neg {fields : Table Json} {a : Json} (htype : fields.find? "type" = some (.str "Neg"))
    (hoperand : fields.find? "operand" = some a) (ha : IsNode a) : IsNode (.obj fields)
  | binary {fields : Table Json} {op : BinOp} {a b : Json}
    (htype : fields.find? "type" = some (.str "BinOp"))
    (hop : fields.find? "op" = some (.str op.symbol)) (hleft : fields.find? "left" = some a)
    (hright : fields.find? "right" = some b) (ha : IsNode a) (hb : IsNode b) : IsNode (.obj fields)
  | call {fields : Table Json} {name : String} {items : List Json}
    (htype : fields.find? "type" = some (.str "Func"))
    (hname : fields.find? "name" = some (.str name))
    (hargs : fields.find? "args" = some (.arr items)) (htakes : Takes name items.length)
    (hitems : ∀ a ∈ items, IsNode a) : IsNode (.obj fields)

/-- The value `j` stands in `d` where reading expects a record. -/
inductive NodeOf : Json → Json → Prop where
  | self (d : Json) : NodeOf d d
  | operand {fields : Table Json} {a j : Json} (htype : fields.find? "type" = some (.str "Neg"))
    (hoperand : fields.find? "operand" = some a) (h : NodeOf a j) : NodeOf (.obj fields) j
  | side {fields : Table Json} {key : String} {a j : Json}
    (htype : fields.find? "type" = some (.str "BinOp")) (hkey : key = "left" ∨ key = "right")
    (hside : fields.find? key = some a) (h : NodeOf a j) : NodeOf (.obj fields) j
  | arg {fields : Table Json} {items : List Json} {a j : Json}
    (htype : fields.find? "type" = some (.str "Func"))
    (hargs : fields.find? "args" = some (.arr items)) (ha : a ∈ items) (h : NodeOf a j) :
    NodeOf (.obj fields) j

/-- The names of variables and functions are texts. -/
def TextNames (d : Json) : Prop :=
  ∀ fields : Table Json, NodeOf d (.obj fields) →
    fields.find? "type" = some (.str "Var") ∨ fields.find? "type" = some (.str "Func") →
    ∀ v, fields.find? "name" = some v → ∃ s, v = .str s

theorem IsNode.of_nodeOf {d j : Json} (h : NodeOf d j) (hd : IsNode d) : IsNode j := by
  induction h with
  | self => exact hd
  | operand htype hoperand _ ih =>
    cases hd with
    | neg htype' hoperand' ha =>
      rw [hoperand] at hoperand'
      cases hoperand'
      exact ih ha
    | _ => simp_all
  | side htype hkey hside _ ih =>
    cases hd with
    | binary htype' hop hleft hright ha hb =>
      rcases hkey with rfl | rfl
      · rw [hleft] at hside
        cases hside
        exact ih ha
      · rw [hright] at hside
        cases hside
        exact ih hb
    | _ => simp_all
  | arg htype hargs ha _ ih =>
    cases hd with
    | call htype' hname hargs' htakes hitems =>
      rw [hargs] at hargs'
      cases hargs'
      exact ih (hitems _ ha)
    | _ => simp_all

theorem IsNode.textNames {d : Json} (hd : IsNode d) : TextNames d := by
  intro fields h htype v hv
  cases IsNode.of_nodeOf h hd with
  | var _ hname | call _ hname =>
    rw [hname] at hv
    cases hv
    exact ⟨_, rfl⟩
  | _ => simp_all

/-! ## Calls -/

theorem exists_apply_iff {name : String} {args : List Expr} :
    (∃ e, apply name args = .ok e) ↔ Takes name args.length := by
  have hunary (f : Fn) : Callee.ofName name = .unary f ↔ name = f.name ∨ name = f.title :=
    Callee.ofName_eq_unary_iff
  have hpow : Callee.ofName name = .pow ↔ name = Callee.powName ∨ name = Callee.powTitle :=
    Callee.ofName_eq_pow_iff
  constructor
  · rintro ⟨e, he⟩
    unfold apply at he
    split at he
    · rename_i f a hf
      refine ⟨by simp, fun h => ?_, fun _ _ => rfl⟩
      rw [← hpow, hf] at h
      cases h
    · rename_i a b hf
      refine ⟨by simp, fun _ => rfl, fun f h => ?_⟩
      rw [← hunary, hf] at h
      cases h
    · rename_i n a rest hf
      refine ⟨by simp, fun h => ?_, fun f h => ?_⟩
      · rw [← hpow, hf] at h
        cases h
      · rw [← hunary, hf] at h
        cases h
    all_goals cases he
  · rintro ⟨hpos, hpow', hknown⟩
    unfold apply
    cases hf : Callee.ofName name with
    | unary f =>
      obtain ⟨a, rfl⟩ := List.length_eq_one_iff.mp (hknown f ((hunary f).mp hf))
      exact ⟨_, rfl⟩
    | pow =>
      obtain ⟨a, b, rfl⟩ := List.length_eq_two.mp (hpow' (hpow.mp hf))
      exact ⟨_, rfl⟩
    | unknown n =>
      obtain ⟨a, rest, rfl⟩ := List.exists_cons_of_length_pos hpos
      exact ⟨_, rfl⟩

theorem wellFormed_apply {name : String} {args : List Expr} {e : Expr}
    (hargs : ∀ a ∈ args, a.WellFormed) (h : apply name args = .ok e) : e.WellFormed := by
  unfold apply at h
  split at h
  · cases h
    have ha := List.forall_mem_singleton.mp hargs
    exact ha
  · cases h
    obtain ⟨ha, hb⟩ := List.forall_mem_cons.mp hargs
    exact ⟨ha, List.forall_mem_singleton.mp hb⟩
  · rename_i n a rest hn
    cases h
    obtain ⟨ha, hrest⟩ := List.forall_mem_cons.mp hargs
    have hname := Callee.ofName_name name
    rw [hn] at hname
    exact ⟨hname, ha, allWellFormed_iff.mpr hrest⟩
  · cases h
  · cases h
  · cases h

theorem Takes.ofName_name {name : String} {n : Nat} (h : Takes name n) :
    Takes (Callee.ofName name).name n where
  pos := h.pos
  pow hname := by
    rw [← Callee.ofName_eq_pow_iff, Callee.ofName_name] at hname
    exact h.pow (Callee.ofName_eq_pow_iff.mp hname)
  known f hname := by
    rw [← Callee.ofName_eq_unary_iff, Callee.ofName_name] at hname
    exact h.known f (Callee.ofName_eq_unary_iff.mp hname)

/-! ## Reading -/

theorem noRecord_ne_ok {j : Json} {e : Expr} : noRecord j ≠ .ok e := by
  intro h
  obtain ⟨_, _, h⟩ := bind_eq_ok_iff.mp h
  cases h

theorem textParts_eq_nil {j : Json} {es : List Expr} (h : textParts j = .ok es) : es = [] := by
  obtain ⟨items, -, h⟩ := bind_eq_ok_iff.mp h
  cases items with
  | nil =>
    cases h
    rfl
  | cons item items =>
    obtain ⟨e, he, -⟩ := bind_eq_ok_iff.mp h
    exact (noRecord_ne_ok he).elim

theorem readFields_eq_map (fields : List (String × Json)) :
    readFields fields = fields.map (Prod.map id read) := by
  induction fields with
  | nil => rfl
  | cons field fields ih =>
    obtain ⟨key, value⟩ := field
    rw [readFields, ih, List.map_cons]
    rfl

section Reading

variable {fields : Table Json}

theorem pick_read {key : String} {v : Json} (h : fields.find? key = some v) :
    pick (readFields fields) key = .ok (read v) := by
  rw [pick, readFields_eq_map, Table.find?_map, h]
  rfl

theorem bind_pick_eq_ok_iff {α : Type} {key : String} {f : Reading → Except Error α} {a : α} :
    (pick (readFields fields) key >>= f) = .ok a ↔
      ∃ v, fields.find? key = some v ∧ f (read v) = .ok a := by
  rw [pick, readFields_eq_map, Table.find?_map]
  cases fields.find? key with
  | none => exact ⟨fun h => (nomatch h), fun ⟨_, h, _⟩ => (nomatch h)⟩
  | some v => simp [bind, Except.bind]

theorem raw_read (j : Json) : (read j).raw = j := by
  cases j <;> rfl

theorem operatorOf_eq_ok_iff {v : Json} {op : BinOp} :
    operatorOf v = .ok op ↔ v = .str op.symbol := by
  constructor
  · intro h
    unfold operatorOf at h
    split at h
    · rename_i s
      split at h
      · rename_i op' hop
        cases h
        have hs : s = op.symbol := by simpa using List.find?_some hop
        rw [hs]
      · cases h
    all_goals cases h
  · rintro rfl
    rw [operatorOf, BinOp.ofSymbol?_symbol]

theorem inOrder_eq_ok_iff {items : List Json} {es : List Expr} :
    inOrder (readItems items) = .ok es ↔ List.Forall₂ (fun j e => ofJson j = .ok e) items es := by
  have hmapM : inOrder (readItems items) = items.mapM ofJson := by
    induction items with
    | nil => rfl
    | cons item items ih =>
      rw [readItems, inOrder, ih, List.mapM_cons]
      rfl
  rw [hmapM, mapM_eq_ok_iff]

theorem parts_eq_ok_iff {j : Json} {es : List Expr} (hes : es ≠ []) :
    (read j).parts = .ok es ↔
      ∃ items, j = .arr items ∧ List.Forall₂ (fun j e => ofJson j = .ok e) items es := by
  cases j with
  | arr items =>
    refine inOrder_eq_ok_iff.trans ⟨fun h => ⟨items, rfl, h⟩, ?_⟩
    rintro ⟨items', h, hitems⟩
    cases h
    exact hitems
  | _ =>
    constructor
    · intro h
      exact (hes (textParts_eq_nil h)).elim
    · rintro ⟨items, h, -⟩
      cases h

theorem ofJson_const {v : Json} (htype : fields.find? "type" = some (.str "Const"))
    (hvalue : fields.find? "value" = some v) :
    ofJson (.obj fields) = do return const (← v.toFloat) := by
  show build (readFields fields) = _
  rw [build, pick_read htype]
  show (do return const (← (← pick (readFields fields) "value").raw.toFloat)) = _
  rw [pick_read hvalue]
  show (do return const (← (read v).raw.toFloat)) = _
  rw [raw_read]

theorem ofJson_var {name : String} (htype : fields.find? "type" = some (.str "Var"))
    (hname : fields.find? "name" = some (.str name)) : ofJson (.obj fields) = .ok (var name) := by
  show build (readFields fields) = _
  rw [build, pick_read htype]
  show (do return ofName (← pick (readFields fields) "name").raw) = _
  rw [pick_read hname]
  rfl

theorem ofJson_neg {a : Json} (htype : fields.find? "type" = some (.str "Neg"))
    (hoperand : fields.find? "operand" = some a) :
    ofJson (.obj fields) = do return neg (← ofJson a) := by
  show build (readFields fields) = _
  rw [build, pick_read htype]
  show (do return neg (← (← pick (readFields fields) "operand").expr)) = _
  rw [pick_read hoperand]
  rfl

theorem ofJson_binary {op : BinOp} {a b : Json} (htype : fields.find? "type" = some (.str "BinOp"))
    (hop : fields.find? "op" = some (.str op.symbol)) (hleft : fields.find? "left" = some a)
    (hright : fields.find? "right" = some b) :
    ofJson (.obj fields) = do return binary op (← ofJson a) (← ofJson b) := by
  show build (readFields fields) = _
  rw [build, pick_read htype]
  show (do
    let op ← operatorOf (← pick (readFields fields) "op").raw
    let left ← (← pick (readFields fields) "left").expr
    let right ← (← pick (readFields fields) "right").expr
    return binary op left right) = _
  rw [pick_read hop, pick_read hleft, pick_read hright]
  show (do
    let op ← operatorOf (.str op.symbol)
    return binary op (← ofJson a) (← ofJson b)) = _
  rw [operatorOf_eq_ok_iff.mpr rfl]
  rfl

theorem ofJson_call {name : String} {items : List Json} {es : List Expr}
    (htype : fields.find? "type" = some (.str "Func"))
    (hname : fields.find? "name" = some (.str name))
    (hargs : fields.find? "args" = some (.arr items))
    (hes : List.Forall₂ (fun j e => ofJson j = .ok e) items es) :
    ofJson (.obj fields) = apply name es := by
  show build (readFields fields) = _
  rw [build, pick_read htype]
  show (do
    let name := (← pick (readFields fields) "name").raw
    let args ← (← pick (readFields fields) "args").parts
    name.checkKey
    apply name.text args) = _
  rw [pick_read hname, pick_read hargs]
  show (do apply name (← inOrder (readItems items))) = _
  rw [inOrder_eq_ok_iff.mpr hes]
  rfl

end Reading

/-- What is read as an expression belongs to the grammar, and so does every item of a list that
is. -/
structure Conforms (j : Json) : Prop where
  node : TextNames j → ∀ e, ofJson j = .ok e → IsNode j
  items : ∀ items, j = .arr items → ∀ a ∈ items, TextNames a → ∀ e, ofJson a = .ok e → IsNode a

theorem conforms_obj {fields : Table Json} (ih : ∀ p ∈ fields, Conforms p.2) :
    Conforms (.obj fields) where
  items _ h := nomatch h
  node hnames e he := by
    have ih' {key : String} {a : Json} (h : fields.find? key = some a) : Conforms a :=
      ih _ (Table.mem_of_find? h)
    obtain ⟨type, htype, he⟩ :=
      bind_pick_eq_ok_iff.mp (show build (readFields fields) = .ok e from he)
    rw [raw_read] at he
    split at he
    · obtain ⟨v, hvalue, he⟩ := bind_pick_eq_ok_iff.mp he
      obtain ⟨x, hx, -⟩ := bind_eq_ok_iff.mp he
      rw [raw_read] at hx
      exact .const htype hvalue hx
    · obtain ⟨v, hname, -⟩ := bind_pick_eq_ok_iff.mp he
      obtain ⟨s, rfl⟩ := hnames fields (.self _) (Or.inl htype) v hname
      exact .var htype hname
    · obtain ⟨a, ha, he⟩ := bind_pick_eq_ok_iff.mp he
      obtain ⟨d, hd, -⟩ := bind_eq_ok_iff.mp he
      exact .neg htype ha ((ih' ha).node (fun _ h => hnames _ (.operand htype ha h)) d hd)
    · obtain ⟨v, hv, he⟩ := bind_pick_eq_ok_iff.mp he
      obtain ⟨op, hop, he⟩ := bind_eq_ok_iff.mp he
      obtain ⟨a, ha, he⟩ := bind_pick_eq_ok_iff.mp he
      obtain ⟨d, hd, he⟩ := bind_eq_ok_iff.mp he
      obtain ⟨b, hb, he⟩ := bind_pick_eq_ok_iff.mp he
      obtain ⟨d', hd', -⟩ := bind_eq_ok_iff.mp he
      rw [raw_read, operatorOf_eq_ok_iff] at hop
      refine .binary htype (hop ▸ hv) ha hb ?_ ?_
      · exact (ih' ha).node (fun _ h => hnames _ (.side htype (Or.inl rfl) ha h)) d hd
      · exact (ih' hb).node (fun _ h => hnames _ (.side htype (Or.inr rfl) hb h)) d' hd'
    · obtain ⟨v, hname, he⟩ := bind_pick_eq_ok_iff.mp he
      obtain ⟨args, hargs, he⟩ := bind_pick_eq_ok_iff.mp he
      obtain ⟨es, hes, he⟩ := bind_eq_ok_iff.mp he
      obtain ⟨-, -, he⟩ := bind_eq_ok_iff.mp he
      obtain ⟨s, rfl⟩ := hnames fields (.self _) (Or.inr htype) v hname
      -- The number of arguments is checked last, but it rules out all that is no list.
      have htakes : Takes s es.length := exists_apply_iff.mp ⟨e, he⟩
      obtain ⟨items, rfl, hitems⟩ :=
        (parts_eq_ok_iff (List.ne_nil_of_length_pos htakes.pos)).mp hes
      rw [← hitems.length_eq] at htakes
      refine .call htype hname hargs htakes fun a ha => ?_
      obtain ⟨d, -, hd⟩ := exists_right_of_mem hitems ha
      exact (ih' hargs).items items rfl a ha (fun _ h => hnames _ (.arg htype hargs ha h)) d hd
    · cases he

theorem conforms (j : Json) : Conforms j := by
  induction j using Json.induction with
  | null | bool | int | float | str =>
    exact ⟨fun _ _ he => (noRecord_ne_ok he).elim, fun _ h => nomatch h⟩
  | arr items ih =>
    refine ⟨fun _ e he => (noRecord_ne_ok he).elim, ?_⟩
    rintro items' h a ha
    cases h
    exact (ih a ha).node
  | obj fields ih => exact conforms_obj ih

/-! ## The plain form of a record -/

/-- A value as a double, if it can be read as one. -/
def asNumber (v : Json) : Json :=
  match v.toFloat with
  | .ok x => .float x
  | .error _ => v

/-- The name by which a function is written. -/
def asFunctionName : Json → Json
  | .str s => .str (Callee.ofName s).name
  | v => v

/-- The fields that a record of a type has, in order, and the form in which they are written. -/
def layout : String → List (String × (Json → Json))
  | "Const" => [("type", id), ("value", asNumber)]
  | "Var" => [("type", id), ("name", id)]
  | "Neg" => [("type", id), ("operand", id)]
  | "BinOp" => [("type", id), ("op", id), ("left", id), ("right", id)]
  | "Func" => [("type", id), ("name", asFunctionName), ("args", id)]
  | _ => []

/-- The fields of a record that belong to its type. -/
def arrange (fields : Table Json) : Table Json :=
  match fields.find? "type" with
  | some (.str type) => (layout type).filterMap fun p => (fields.find? p.1).map fun v => (p.1, p.2 v)
  | _ => fields

mutual

/-- The record without other fields, with all values as doubles and all functions by their first
names, at every depth. -/
def tidy : Json → Json
  | .obj fields => .obj (arrange (tidyFields fields))
  | .arr items => .arr (tidyItems items)
  | .null => .null
  | .bool b => .bool b
  | .int n => .int n
  | .float x => .float x
  | .str s => .str s

def tidyItems : List Json → List Json
  | [] => []
  | item :: rest => tidy item :: tidyItems rest

def tidyFields : List (String × Json) → List (String × Json)
  | [] => []
  | (key, value) :: rest => (key, tidy value) :: tidyFields rest

end

theorem tidyItems_eq_map (items : List Json) : tidyItems items = items.map tidy := by
  induction items with
  | nil => rfl
  | cons item items ih => rw [tidyItems, ih, List.map_cons]

theorem find?_tidyFields (fields : Table Json) (key : String) :
    Table.find? (tidyFields fields) key = (fields.find? key).map tidy := by
  induction fields with
  | nil => rfl
  | cons field fields ih =>
    obtain ⟨name, value⟩ := field
    by_cases h : name = key <;> simp [tidyFields, Table.find?, h, ih]

section Tidy

variable {fields : Table Json}

theorem tidy_obj {type : String} (htype : fields.find? "type" = some (.str type)) :
    tidy (.obj fields) =
      .obj ((layout type).filterMap fun p => (fields.find? p.1).map fun v => (p.1, p.2 (tidy v))) := by
  rw [tidy, arrange, find?_tidyFields, htype]
  simp only [Option.map_some, tidy, find?_tidyFields, Option.map_map]
  rfl

theorem tidy_const {v : Json} {x : Float} (htype : fields.find? "type" = some (.str "Const"))
    (hvalue : fields.find? "value" = some v) (hx : v.toFloat = .ok x) :
    tidy (.obj fields) = record "Const" [("value", .float x)] := by
  have htidy : asNumber (tidy v) = .float x := by
    cases v with
    | arr | obj => cases hx
    | _ => rw [tidy, asNumber, hx]
  rw [tidy_obj htype]
  simp [layout, htype, hvalue, htidy, tidy, record]

theorem tidy_var {name : String} (htype : fields.find? "type" = some (.str "Var"))
    (hname : fields.find? "name" = some (.str name)) :
    tidy (.obj fields) = record "Var" [("name", .str name)] := by
  rw [tidy_obj htype]
  simp [layout, htype, hname, tidy, record]

theorem tidy_neg {a : Json} (htype : fields.find? "type" = some (.str "Neg"))
    (hoperand : fields.find? "operand" = some a) :
    tidy (.obj fields) = record "Neg" [("operand", tidy a)] := by
  rw [tidy_obj htype]
  simp [layout, htype, hoperand, tidy, record]

theorem tidy_binary {op : BinOp} {a b : Json} (htype : fields.find? "type" = some (.str "BinOp"))
    (hop : fields.find? "op" = some (.str op.symbol)) (hleft : fields.find? "left" = some a)
    (hright : fields.find? "right" = some b) :
    tidy (.obj fields) = pairRecord op.symbol (tidy a) (tidy b) := by
  rw [tidy_obj htype]
  simp [layout, htype, hop, hleft, hright, tidy, pairRecord, record]

theorem tidy_call {name : String} {items : List Json}
    (htype : fields.find? "type" = some (.str "Func"))
    (hname : fields.find? "name" = some (.str name))
    (hargs : fields.find? "args" = some (.arr items)) :
    tidy (.obj fields) = callRecord (Callee.ofName name).name (items.map tidy) := by
  rw [tidy_obj htype]
  simp [layout, htype, hname, hargs, tidy, tidyItems_eq_map, asFunctionName, callRecord, record]

end Tidy

/-! ## Writing -/

theorem toJsonAll_eq_ok {es : List Expr} {js : List Json}
    (h : List.Forall₂ (fun e j => e.toJson = .ok j) es js) : toJsonAll es = .ok js := by
  induction h with
  | nil => rfl
  | cons he _ ih =>
    rw [toJsonAll, he, ih]
    rfl

theorem toJson_apply {name : String} {es : List Expr} {js : List Json} {e : Expr}
    (h : apply name es = .ok e) (hes : List.Forall₂ (fun e j => e.toJson = .ok j) es js) :
    e.toJson = .ok (callRecord (Callee.ofName name).name js) := by
  unfold apply at h
  split at h
  · rename_i f a hf
    cases h
    rcases hes with _ | ⟨ha, _ | _⟩
    rw [toJson, ha, hf]
    rfl
  · rename_i a b hf
    cases h
    rcases hes with _ | ⟨ha, _ | ⟨hb, _ | _⟩⟩
    rw [toJson, ha, hb, hf]
    rfl
  · rename_i n a rest hf
    cases h
    rcases hes with _ | ⟨ha, hrest⟩
    rw [toJson, ha, toJsonAll_eq_ok hrest, hf]
    rfl
  all_goals cases h

theorem IsNode.exists_expr {d : Json} (h : IsNode d) :
    ∃ e, ofJson d = .ok e ∧ e.WellFormed ∧ e.toJson = .ok (tidy d) := by
  induction h with
  | @const fields v x htype hvalue hx =>
    refine ⟨.const x, ?_, trivial, ?_⟩
    · rw [ofJson_const htype hvalue, hx]
      rfl
    · rw [tidy_const htype hvalue hx, toJson]
  | @var fields name htype hname =>
    refine ⟨.var name, ofJson_var htype hname, trivial, ?_⟩
    rw [tidy_var htype hname, toJson]
  | neg htype hoperand _ iha =>
    obtain ⟨e, he, hwf, hj⟩ := iha
    refine ⟨.neg e, ?_, hwf, ?_⟩
    · rw [ofJson_neg htype hoperand, he]
      rfl
    · rw [tidy_neg htype hoperand, toJson, hj]
      rfl
  | @binary fields op a b htype hop hleft hright _ _ iha ihb =>
    obtain ⟨e, he, hwf, hj⟩ := iha
    obtain ⟨e', he', hwf', hj'⟩ := ihb
    refine ⟨.binary op e e', ?_, ⟨hwf, hwf'⟩, ?_⟩
    · rw [ofJson_binary htype hop hleft hright, he, he']
      rfl
    · rw [tidy_binary htype hop hleft hright, toJson, hj, hj']
      rfl
  | @call fields name items htype hname hargs htakes _ ih =>
    obtain ⟨es, hes⟩ := exists_forall₂ ih
    rw [hes.length_eq] at htakes
    obtain ⟨e, he⟩ := exists_apply_iff.mpr htakes
    refine ⟨e, ?_, wellFormed_apply (fun a ha => ?_) he, ?_⟩
    · rw [ofJson_call htype hname hargs (hes.imp fun _ _ h => h.1), he]
    · obtain ⟨item, -, -, hwf, -⟩ := exists_left_of_mem hes ha
      exact hwf
    · rw [tidy_call htype hname hargs]
      refine toJson_apply he ?_
      rw [List.forall₂_map_right_iff]
      exact hes.flip.imp fun _ _ h => h.2.2

theorem wellFormed_ofJson {j : Json} (hnames : TextNames j) {e : Expr} (h : ofJson j = .ok e) :
    e.WellFormed := by
  obtain ⟨e', he', hwf, -⟩ := ((conforms j).node hnames e h).exists_expr
  obtain rfl : e = e' := Except.ok.inj (h.symm.trans he')
  exact hwf

theorem IsNode.tidy {d : Json} (h : IsNode d) : IsNode (tidy d) := by
  induction h with
  | const htype hvalue hx =>
    rw [tidy_const htype hvalue hx]
    exact .const rfl rfl rfl
  | var htype hname =>
    rw [tidy_var htype hname]
    exact .var rfl rfl
  | neg htype hoperand _ iha =>
    rw [tidy_neg htype hoperand]
    exact .neg rfl rfl iha
  | binary htype hop hleft hright _ _ iha ihb =>
    rw [tidy_binary htype hop hleft hright]
    exact .binary rfl rfl rfl rfl iha ihb
  | call htype hname hargs htakes _ ih =>
    rw [tidy_call htype hname hargs]
    refine .call rfl rfl rfl ?_ (List.forall_mem_map.mpr ih)
    rw [List.length_map]
    exact htakes.ofName_name

/-- Reading accepts the values of the grammar and no others, where the names of variables and
functions are texts; any other value is refused. What was read is written in the plain form of the
record, which is a record of the same expression and its own plain form. -/
theorem reading_accepts_exactly_records {d : Json} (hnames : TextNames d) :
    ((∃ e, ofJson d = .ok e) ↔ IsNode d) ∧
      (¬ IsNode d → ∃ err, ofJson d = .error err) ∧
      (IsNode d → (ofJson d >>= toJson) = .ok (tidy d) ∧ IsNode (tidy d) ∧
        ofJson (tidy d) = ofJson d ∧ tidy (tidy d) = tidy d) := by
  have hiff : (∃ e, ofJson d = .ok e) ↔ IsNode d := by
    constructor
    · rintro ⟨e, he⟩
      exact (conforms d).node hnames e he
    · intro h
      obtain ⟨e, he, -⟩ := h.exists_expr
      exact ⟨e, he⟩
  refine ⟨hiff, fun h => ?_, fun h => ?_⟩
  · cases hd : ofJson d with
    | ok e => exact (h (hiff.mp ⟨e, hd⟩)).elim
    | error err => exact ⟨err, rfl⟩
  · obtain ⟨e, he, hwf, hj⟩ := h.exists_expr
    obtain ⟨j, hrecorded⟩ := exists_recorded hwf
    obtain rfl : Expr.tidy d = j := Except.ok.inj (hj.symm.trans hrecorded.written)
    obtain ⟨e', he', -, hj'⟩ := h.tidy.exists_expr
    obtain rfl : e = e' := Except.ok.inj (hrecorded.read.symm.trans he')
    refine ⟨?_, h.tidy, he'.trans he.symm, Except.ok.inj (hj'.symm.trans hj)⟩
    rw [he]
    exact hj

/-- The fields of a call in another order, a truth value as a number, a capitalised function and
fields that no record has. -/
theorem reading_accepts_exactly_records_capitalised :
    let x := Json.obj [("name", .str "x"), ("unit", .null), ("type", .str "Var")]
    let yes := Json.obj [("value", .bool true), ("type", .str "Const")]
    let d := Json.obj [("args", .arr [x, yes]), ("name", .str "Pow"), ("type", .str "Func")]
    let plain :=
      callRecord "pow" [record "Var" [("name", .str "x")], record "Const" [("value", .float 1)]]
    TextNames d ∧ IsNode d ∧ (ofJson d >>= toJson) = .ok plain ∧ tidy plain = plain := by
  intro x yes d plain
  have hx : IsNode x := .var rfl rfl
  have hyes : IsNode yes := .const rfl rfl rfl
  have htakes : Takes "Pow" 2 := exists_apply_iff.mp ⟨_, show apply "Pow" [one, one] = _ from rfl⟩
  have hd : IsNode d := .call rfl rfl rfl htakes (by simp [hx, hyes])
  obtain ⟨-, -, h⟩ := reading_accepts_exactly_records hd.textNames
  obtain ⟨hwritten, -, -, hplain⟩ := h hd
  have htidy : tidy d = plain := rfl
  rw [htidy] at hwritten hplain
  exact ⟨hd.textNames, hd, hwritten, hplain⟩

end Expr

end Nabla
