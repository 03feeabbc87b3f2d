import Nabla.Lambda.Json
import Nabla.Proofs.JsonText
import Nabla.Proofs.Tree
import Nabla.Value.Calculus

/-!
# Expressions and functions read back from their text

The record of an expression is read as that expression: a known function is found by its name, and
an unknown one keeps its own. With the text of the record the same holds of what is written to a
file.
-/

namespace Nabla

namespace Expr

/-- The value is the record of the expression: it is what is written, and what is read as the
expression. In the body of a function, that it is a record tells it from a list. -/
structure Recorded (e : Expr) (j : Json) : Prop where
  written : e.toJson = .ok j
  readable : j.Readable
  read : ofJson j = .ok e
  isRecord : ∃ fields, j = .obj fields

theorem recorded_const (x : Float) :
    (const x).Recorded (record "Const" [("value", .float x)]) where
  written := rfl
  readable := ⟨(by decide : ["type", "value"].Nodup), trivial, trivial, trivial⟩
  read := rfl
  isRecord := ⟨_, rfl⟩

theorem recorded_var (name : String) :
    (var name).Recorded (record "Var" [("name", .str name)]) where
  written := rfl
  readable := ⟨(by decide : ["type", "name"].Nodup), trivial, trivial, trivial⟩
  read := rfl
  isRecord := ⟨_, rfl⟩

theorem Recorded.neg {a : Expr} {j : Json} (h : a.Recorded j) :
    (neg a).Recorded (record "Neg" [("operand", j)]) where
  written := by rw [toJson, h.written]; rfl
  readable := ⟨(by decide : ["type", "operand"].Nodup), trivial, h.readable, trivial⟩
  read := by
    show (do return Expr.neg (← ofJson j)) = _
    rw [h.read]
    rfl
  isRecord := ⟨_, rfl⟩

theorem Recorded.binary {a b : Expr} {j k : Json} (op : BinOp) (ha : a.Recorded j)
    (hb : b.Recorded k) : (binary op a b).Recorded (pairRecord op.symbol j k) where
  written := by rw [toJson, ha.written, hb.written]; rfl
  readable := ⟨(by decide : ["type", "op", "left", "right"].Nodup), trivial, trivial, ha.readable,
    hb.readable, trivial⟩
  read := by
    show (do
      let op ← operatorOf (.str op.symbol)
      let left ← ofJson j
      let right ← ofJson k
      return Expr.binary op left right) = _
    rw [operatorOf, BinOp.ofSymbol?_symbol, ha.read, hb.read]
    rfl
  isRecord := ⟨_, rfl⟩

/-! ## Calls -/

/-- The records of a list of expressions. -/
structure AllRecorded (es : List Expr) (js : List Json) : Prop where
  written : toJsonAll es = .ok js
  readable : Json.AllReadable js
  read : inOrder (readItems js) = .ok es

theorem allRecorded_nil : AllRecorded [] [] := ⟨rfl, trivial, rfl⟩

theorem AllRecorded.cons {e : Expr} {j : Json} {es : List Expr} {js : List Json}
    (h : e.Recorded j) (hs : AllRecorded es js) : AllRecorded (e :: es) (j :: js) where
  written := by rw [toJsonAll, h.written, hs.written]; rfl
  readable := ⟨h.readable, hs.readable⟩
  read := by
    show (do return (← ofJson j) :: (← inOrder (readItems js))) = _
    rw [h.read, hs.read]
    rfl

theorem readable_callRecord (name : String) {js : List Json} (h : Json.AllReadable js) :
    (callRecord name js).Readable :=
  ⟨(by decide : ["type", "name", "args"].Nodup), trivial, trivial, h, trivial⟩

theorem ofJson_callRecord (name : String) {es : List Expr} {js : List Json}
    (h : AllRecorded es js) : ofJson (callRecord name js) = apply name es := by
  show (inOrder (readItems js) >>= fun args => apply name args) = _
  rw [h.read]
  rfl

theorem Recorded.call {a : Expr} {j : Json} (f : Fn) (h : a.Recorded j) :
    (call f a).Recorded (callRecord f.name [j]) where
  written := by rw [toJson, h.written]; rfl
  readable := readable_callRecord _ ⟨h.readable, trivial⟩
  read := by
    rw [ofJson_callRecord _ (.cons h allRecorded_nil)]
    unfold apply
    rw [Callee.ofName_unary]
  isRecord := ⟨_, rfl⟩

theorem Recorded.powCall {a b : Expr} {j k : Json} (ha : a.Recorded j) (hb : b.Recorded k) :
    (powCall a b).Recorded (callRecord Callee.powName [j, k]) where
  written := by rw [toJson, ha.written, hb.written]; rfl
  readable := readable_callRecord _ ⟨ha.readable, hb.readable, trivial⟩
  read := by
    rw [ofJson_callRecord _ (.cons ha (.cons hb allRecorded_nil))]
    unfold apply
    rw [Callee.ofName_pow]
  isRecord := ⟨_, rfl⟩

theorem Recorded.unknown {n : String} {a : Expr} {j : Json} {rest : List Expr} {js : List Json}
    (hn : Callee.ofName n = .unknown n) (ha : a.Recorded j) (hrest : AllRecorded rest js) :
    (unknown n a rest).Recorded (callRecord n (j :: js)) where
  written := by rw [toJson, ha.written, hrest.written]; rfl
  readable := readable_callRecord _ ⟨ha.readable, hrest.readable⟩
  read := by
    rw [ofJson_callRecord _ (.cons ha hrest)]
    unfold apply
    rw [hn]
  isRecord := ⟨_, rfl⟩

theorem exists_allRecorded {es : List Expr} (h : ∀ e ∈ es, e.WellFormed → ∃ j, e.Recorded j)
    (hes : AllWellFormed es) : ∃ js, AllRecorded es js := by
  induction es with
  | nil => exact ⟨[], allRecorded_nil⟩
  | cons e es ih =>
    obtain ⟨he, hrest⟩ := List.forall_mem_cons.mp h
    obtain ⟨j, hj⟩ := he hes.1
    obtain ⟨js, hjs⟩ := ih hrest hes.2
    exact ⟨j :: js, .cons hj hjs⟩

theorem exists_recorded {e : Expr} (h : e.WellFormed) : ∃ j, e.Recorded j := by
  induction e with
  | const x => exact ⟨_, recorded_const x⟩
  | var name => exact ⟨_, recorded_var name⟩
  | neg a iha =>
    obtain ⟨j, hj⟩ := iha h
    exact ⟨_, hj.neg⟩
  | binary op a b iha ihb =>
    obtain ⟨j, hj⟩ := iha h.1
    obtain ⟨k, hk⟩ := ihb h.2
    exact ⟨_, hj.binary op hk⟩
  | call f a iha =>
    obtain ⟨j, hj⟩ := iha h
    exact ⟨_, hj.call f⟩
  | powCall a b iha ihb =>
    obtain ⟨j, hj⟩ := iha h.1
    obtain ⟨k, hk⟩ := ihb h.2
    exact ⟨_, hj.powCall hk⟩
  | unknown n a rest iha ihrest =>
    obtain ⟨hn, ha, hrest⟩ := h
    obtain ⟨j, hj⟩ := iha ha
    obtain ⟨js, hjs⟩ := exists_allRecorded ihrest hrest
    exact ⟨_, hj.unknown hn hjs⟩
  | blank | pair | datum | oddVar => exact h.elim

end Expr

/-! ## Functions -/

namespace Lambda

theorem allReadable_parameters (ps : List String) : Json.AllReadable (ps.map .str) := by
  induction ps with
  | nil => trivial
  | cons p ps ih => exact ⟨trivial, ih⟩

theorem text_parameters (ps : List String) : (ps.map Json.str).map Json.text = ps := by
  rw [List.map_map]
  exact List.map_id ps

/-- The record of a function with the given record of its body. -/
def record (ps : List String) (body : Json) : Json :=
  .obj [("type", .str "Lambda"), ("parameters", .arr (ps.map .str)), ("body", body)]

theorem readable_record (ps : List String) {body : Json} (h : body.Readable) :
    (record ps body).Readable :=
  ⟨(by decide : ["type", "parameters", "body"].Nodup), trivial, allReadable_parameters ps, h,
    trivial⟩

theorem exists_record {f : Lambda} (h : ∀ e ∈ f.components, e.WellFormed) :
    ∃ j, f.toJson = .ok j ∧ j.Readable ∧ ofJson j = .ok f := by
  obtain ⟨ps, body⟩ := f
  cases body with
  | none =>
    refine ⟨record ps .null, rfl, readable_record ps trivial, ?_⟩
    show Except.ok (⟨(ps.map Json.str).map Json.text, .none⟩ : Lambda) = _
    rw [text_parameters]
  | scalar e =>
    obtain ⟨j, hj⟩ := Expr.exists_recorded (h e List.mem_cons_self)
    obtain ⟨fields, rfl⟩ := hj.isRecord
    refine ⟨record ps (.obj fields), ?_, readable_record ps hj.readable, ?_⟩
    · rw [toJson, bodyJson, hj.written]
      rfl
    · show (do return (⟨(ps.map Json.str).map Json.text,
        .scalar (← Expr.ofJson (.obj fields))⟩ : Lambda)) = _
      rw [hj.read, text_parameters]
      rfl
  | array es =>
    have hes : Expr.AllWellFormed es := Expr.allWellFormed_iff.mpr h
    obtain ⟨js, hjs⟩ := Expr.exists_allRecorded (fun _ _ => Expr.exists_recorded) hes
    refine ⟨record ps (.arr js), ?_, readable_record ps hjs.readable, ?_⟩
    · rw [toJson, bodyJson, hjs.written]
      rfl
    · show (do return (⟨(ps.map Json.str).map Json.text,
        .array (← Expr.inOrder (Expr.readItems js))⟩ : Lambda)) = _
      rw [hjs.read, text_parameters]
      rfl

end Lambda

/-- The text of an expression is read as that expression, and the text of a function as that
function. Constants are the same doubles, with the sign of zero. -/
theorem text_reads_back :
    (∀ e : Expr, e.WellFormed → ∃ s, Value.render (.expr e) = .ok s ∧
      (Json.parse s >>= Expr.ofJson) = .ok e) ∧
    ∀ f : Lambda, (∀ e ∈ f.components, e.WellFormed) → ∃ s, Value.render (.lambda f) = .ok s ∧
      (Json.parse s >>= Lambda.ofJson) = .ok f := by
  constructor
  · intro e h
    obtain ⟨j, hj⟩ := Expr.exists_recorded h
    refine ⟨j.render, ?_, ?_⟩
    · rw [Value.render, hj.written]
      rfl
    · rw [Json.parse_render hj.readable]
      exact hj.read
  · intro f h
    obtain ⟨j, hwritten, hreadable, hread⟩ := Lambda.exists_record h
    refine ⟨j.render, ?_, ?_⟩
    · rw [Value.render, hwritten]
      rfl
    · rw [Json.parse_render hreadable]
      exact hread

/-- A call with a quote, a backslash and characters of three widths in its name, over a negative
zero, no number at all and a variable named by control characters. -/
def awkward : Expr :=
  .unknown "\"é𝔽\\" (.const (-0.0)) [.neg (.const (0.0 / 0.0)), .var "\n\x7f"]

theorem text_reads_back_awkward :
    awkward.WellFormed ∧
    (∃ s, Value.render (.expr awkward) = .ok s ∧ (Json.parse s >>= Expr.ofJson) = .ok awkward) ∧
    ∃ s, Value.render (.lambda ⟨["x", "x", ""], .array [awkward]⟩) = .ok s ∧
      (Json.parse s >>= Lambda.ofJson) = .ok ⟨["x", "x", ""], .array [awkward]⟩ := by
  have h : awkward.WellFormed := ⟨by decide, trivial, trivial, trivial, trivial⟩
  refine ⟨h, text_reads_back.1 awkward h, text_reads_back.2 _ ?_⟩
  intro e he
  rw [List.mem_singleton.mp he]
  exact h

end Nabla
