import Nabla.Compiled
import Nabla.Proofs.Code
import Nabla.Proofs.Numbers

/-!
# Compiled equations and evaluated equations agree

Compiling equations fails exactly when one of them cannot be evaluated with all parameters bound, and
with the same fault as the first such equation. The compiled function then gives the values of the
equations, and stops only where it reads a place for which it was given no value.
-/

namespace Nabla

variable {ps : List String}

/-! ## Compiling with all parameters bound -/

theorem isSome_find?_ofPairs {bound : List Float} (hb : bound.length = ps.length) (name : String) :
    ((Table.ofPairs (ps.zip bound)).find? name).isSome ↔ name ∈ ps := by
  constructor
  · intro h
    by_contra hn
    rw [Table.find?_ofPairs_of_not_mem hn] at h
    exact nomatch h
  · intro h
    exact Option.isSome_iff_exists.mpr (Table.exists_find?_ofPairs h hb)

theorem FailAlike.map_right {α β γ : Type} {m : Except Error α} {m' : Except Error β}
    (h : FailAlike m m') (f : β → γ) : FailAlike m (m'.map f) := by
  cases h with
  | ok a b => exact .ok a (f b)
  | error herr => exact .error herr

theorem emit_failAlike_eval {bound : List Float} (hb : bound.length = ps.length) {e : Expr}
    (h : e.obstacle = none) : FailAlike (e.emit ps) (e.eval (bindings ps bound)) := by
  rw [eval_bindings]
  exact (emit_failAlike (isSome_find?_ofPairs hb) h).map_right _

theorem FailAlike.isOk_iff {α β : Type} {m : Except Error α} {m' : Except Error β}
    (h : FailAlike m m') : (∃ a, m = .ok a) ↔ ∃ b, m' = .ok b := by
  cases h with
  | ok a b => exact ⟨fun _ => ⟨b, rfl⟩, fun _ => ⟨a, rfl⟩⟩
  | error herr => exact ⟨fun ⟨_, h⟩ => (nomatch h), fun ⟨_, h⟩ => (nomatch h)⟩

theorem FailAlike.of_error {α β : Type} {err : Error} {m' : Except Error β}
    (h : FailAlike (.error err : Except Error α) m') :
    ∃ err', m' = .error err' ∧ SameFault err err' := by
  cases h with
  | error herr => exact ⟨_, rfl, herr⟩

namespace Program

variable {eqs : List Expr}

theorem compile_eq_error_iff (h : Compilable ps eqs) {err : Error} :
    compile eqs ps = .error err ↔ eqs.mapM (Expr.emit ps) = .error err := by
  rw [compile_eq_map h, map_eq_error_iff]

theorem first_failure (h : Compilable ps eqs) {bound : List Float} (hb : bound.length = ps.length)
    {err : Error} (herr : compile eqs ps = .error err) :
    ∃ before e after err', eqs = before ++ e :: after ∧
      (∀ e' ∈ before, ∃ x, e'.eval (bindings ps bound) = .ok x) ∧
      e.eval (bindings ps bound) = .error err' ∧ SameFault err err' := by
  rw [compile_eq_error_iff h, mapM_eq_error_iff] at herr
  obtain ⟨before, e, after, rfl, hbefore, he⟩ := herr
  have hmem : e ∈ before ++ e :: after := List.mem_append_right _ List.mem_cons_self
  have halike := emit_failAlike_eval hb (h.finished e hmem)
  rw [he] at halike
  obtain ⟨err', herr', hsame⟩ := halike.of_error
  refine ⟨before, e, after, err', rfl, fun e' he' => ?_, herr', hsame⟩
  have hfin := h.finished e' (List.mem_append_left _ he')
  exact (emit_failAlike_eval hb hfin).isOk_iff.mp (hbefore e' he')

theorem compile_fails_iff (h : Compilable ps eqs) {bound : List Float}
    (hb : bound.length = ps.length) :
    (∃ err, compile eqs ps = .error err) ↔
      ∃ e ∈ eqs, ∃ err, e.eval (bindings ps bound) = .error err := by
  constructor
  · rintro ⟨err, herr⟩
    obtain ⟨before, e, after, err', rfl, -, he, -⟩ := first_failure h hb herr
    exact ⟨e, List.mem_append_right _ List.mem_cons_self, err', he⟩
  · rintro ⟨e, he, err, herr⟩
    cases hp : compile eqs ps with
    | error err' => exact ⟨err', rfl⟩
    | ok p =>
      -- all equations have code, so this one has a value
      obtain ⟨c, hc⟩ := exists_right_of_mem (forall₂_emit hp) he
      obtain ⟨x, hx⟩ := (emit_failAlike_eval hb (h.finished e he)).isOk_iff.mp ⟨c, hc.2⟩
      rw [hx] at herr
      cases herr

/-! ## Running what was compiled -/

theorem forall₂_computes {A : Arithmetic Float} (hA : ∀ x, A.neg x = -x)
    (hfin : ∀ e ∈ eqs, e.obstacle = none) {p : Program} (hp : compile eqs ps = .ok p)
    (values : List Float) :
    List.Forall₂ (fun e c => Computes (InReach ps values.length e) values.length
      (c.run (.scalar A id) values)
      (e.evalWith (.scalar A id) (Table.ofPairs (ps.zip values)).find?)) eqs p.lines := by
  have hf := (List.forall₂_and_left _ _).mpr ⟨hfin, forall₂_emit hp⟩
  refine hf.imp fun e c ⟨he, hc⟩ => ?_
  exact run_emit hA (fun name i hlast hi => Table.find?_ofPairs_of_lastAt hlast hi) he hc

theorem call_numbers (A : Arithmetic Float) (p : Program) (values : List Float) :
    p.call A (.ofRowMajor [values.length] values.toArray) = p.runIn A values := by
  show p.runIn A (NdArray.toList _) = _
  rw [toList_ofRowMajor]

end Program

/-! ## Equations and parameters as values -/

/-- Texts as values of a session. -/
def textValues (texts : List String) : List Value := texts.map fun s => .plain (.str s)

theorem checkKeys_textValues (texts : List String) :
    Value.checkKeys (textValues texts) = .ok () := by
  induction texts with
  | nil => rfl
  | cons s texts ih =>
    show (do Value.checkKey (.plain (.str s)); Value.checkKeys (textValues texts)) = _
    rw [ih]
    rfl

theorem places_textValues (eqs : List Value) (texts : List String) :
    Value.places eqs (textValues texts) = texts := by
  unfold Value.places textValues
  rw [List.map_map]
  exact List.map_id texts

theorem compileWith_exprs (eqs : List Expr) (ps : List String) :
    Program.compileWith (fun v => do (← Value.node .emit v).emit ps) (eqs.map .expr) =
      Program.compile eqs ps := by
  unfold Program.compile Program.compileWith
  rw [List.mapM_map]
  rfl

theorem ofEquations_eq (eqs : List Expr) (ps : List String) (s : Settings) :
    Compiled.ofEquations (eqs.map .expr) (textValues ps) s =
      (Program.compile eqs ps).map fun p => ⟨p, s, false⟩ := by
  unfold Compiled.ofEquations
  rw [checkKeys_textValues, places_textValues, ← compileWith_exprs]
  show (do return (⟨← Program.compileWith _ _, s, false⟩ : Compiled)) = _
  cases Program.compileWith _ (eqs.map Value.expr) <;> rfl

theorem callFault?_of_plain {s : Settings} (hs : s.accelerate.truthy = false) :
    s.callFault? = none := by
  unfold Settings.callFault?
  rw [hs]
  rfl

theorem arithmetic_of_plain {s : Settings} (hs : s.accelerate.truthy = false) :
    s.arithmetic = .double := by
  unfold Settings.arithmetic
  rw [hs]
  rfl

theorem checkCall_of_callFault? {s : Settings} (hs : s.callFault? = none) : s.checkCall = .ok () := by
  unfold Settings.checkCall
  rw [hs]

theorem Compiled.call_numbers {c : Compiled} (hs : c.settings.accelerate.truthy = false)
    (hc : c.single = false) (values : List Float) :
    c.call (numberValues values) =
      (c.program.run values).map fun out => .array (.ofRowMajor [out.length] out.toArray) := by
  unfold Compiled.call
  rw [toArray_numberValues, checkCall_of_callFault? (callFault?_of_plain hs),
    arithmetic_of_plain hs, hc]
  show (do
    let out ← c.program.call .double (.ofRowMajor [values.length] values.toArray)
    return Value.array (.ofRowMajor [out.length] out.toArray)) = _
  rw [Program.call_numbers]
  unfold Program.run
  cases c.program.runIn .double values <;> rfl

/-! ## Agreement -/

section Agreement

variable {s : Settings} {eqs : List Expr}

theorem ofEquations_eq_error_iff {err : Error} :
    Compiled.ofEquations (eqs.map .expr) (textValues ps) s = .error err ↔
      Program.compile eqs ps = .error err := by
  rw [ofEquations_eq, map_eq_error_iff]

theorem exists_program_of_ofEquations {c : Compiled}
    (hc : Compiled.ofEquations (eqs.map .expr) (textValues ps) s = .ok c) :
    ∃ p, Program.compile eqs ps = .ok p ∧ c = ⟨p, s, false⟩ := by
  rw [ofEquations_eq, map_eq_ok_iff] at hc
  obtain ⟨p, hp, rfl⟩ := hc
  exact ⟨p, hp, rfl⟩

variable {p : Program} {values : List Float}

theorem call_of_inReach (hs : s.accelerate.truthy = false) (h : Program.Compilable ps eqs)
    (hp : Program.compile eqs ps = .ok p) (hr : ∀ e ∈ eqs, InReach ps values.length e) :
    ∃ out : NdArray Float, Compiled.call ⟨p, s, false⟩ (numberValues values) = .ok (.array out) ∧
      out.shape = [eqs.length] ∧
      List.Forall₂ (fun e y => e.eval (bindings ps values) = .ok (.scalar y)) eqs out.toList := by
  have hcomputes := Program.forall₂_computes (A := .double) (fun _ => rfl) h.finished hp values
  obtain ⟨out, hout, hf⟩ := Program.run_of_inReach hcomputes hr
  refine ⟨.ofRowMajor [out.length] out.toArray, ?_, ?_, ?_⟩
  · rw [Compiled.call_numbers hs rfl, Program.run, hout]
    rfl
  · rw [hf.length_eq]
    rfl
  · rw [toList_ofRowMajor]
    refine hf.imp fun e y hy => ?_
    rw [eval_bindings, hy]
    rfl

theorem call_of_not_inReach (hs : s.accelerate.truthy = false) (h : Program.Compilable ps eqs)
    (hp : Program.compile eqs ps = .ok p) (hn : ∃ e ∈ eqs, ¬ InReach ps values.length e) :
    ∃ i n, Compiled.call ⟨p, s, false⟩ (numberValues values) = .error (.outOfBounds i n) := by
  have hcomputes := Program.forall₂_computes (A := .double) (fun _ => rfl) h.finished hp values
  obtain ⟨i, hi⟩ := Program.run_of_not_inReach hcomputes hn
  refine ⟨i, values.length, ?_⟩
  rw [Compiled.call_numbers hs rfl, Program.run, hi]
  rfl

end Agreement

/-- Compiled and evaluated equations agree, failures included. The values are those of the parameters
in their order; surplus values are ignored, and of a repeated parameter the last value counts. -/
theorem compiled_agrees {s : Settings} (hs : s.accelerate.truthy = false) {ps : List String}
    {eqs : List Expr} (h : Program.Compilable ps eqs) :
    (∀ bound : List Float, bound.length = ps.length →
      ((∃ err, Compiled.ofEquations (eqs.map .expr) (textValues ps) s = .error err) ↔
        ∃ e ∈ eqs, ∃ err, e.eval (bindings ps bound) = .error err) ∧
      ∀ err, Compiled.ofEquations (eqs.map .expr) (textValues ps) s = .error err →
        ∃ before e after err', eqs = before ++ e :: after ∧
          (∀ e' ∈ before, ∃ x, e'.eval (bindings ps bound) = .ok x) ∧
          e.eval (bindings ps bound) = .error err' ∧ SameFault err err') ∧
    ∀ c, Compiled.ofEquations (eqs.map .expr) (textValues ps) s = .ok c → ∀ values : List Float,
      ((∃ i n, c.call (numberValues values) = .error (.outOfBounds i n)) ↔
        ∃ e ∈ eqs, ∃ name ∈ e.variableNames, ∃ i, LastAt ps name i ∧ values.length ≤ i) ∧
      ((∀ e ∈ eqs, ∀ name ∈ e.variableNames, ∀ i, LastAt ps name i → i < values.length) →
        ∃ out : NdArray Float, c.call (numberValues values) = .ok (.array out) ∧
          out.shape = [eqs.length] ∧
          List.Forall₂ (fun e y => e.eval (bindings ps values) = .ok (.scalar y)) eqs out.toList) := by
  refine ⟨fun bound hb => ?_, fun c hc values => ?_⟩
  · simp only [ofEquations_eq_error_iff]
    exact ⟨Program.compile_fails_iff h hb, fun err => Program.first_failure h hb⟩
  · obtain ⟨p, hp, rfl⟩ := exists_program_of_ofEquations hc
    refine ⟨⟨?_, ?_⟩, call_of_inReach hs h hp⟩
    · -- with all values in reach the call succeeds
      rintro ⟨i, n, hi⟩
      by_contra hn
      push Not at hn
      obtain ⟨out, hout, -⟩ := call_of_inReach hs h hp hn
      rw [hout] at hi
      cases hi
    · rintro ⟨e, he, name, hname, i, hlast, hi⟩
      refine call_of_not_inReach hs h hp ⟨e, he, fun hr => ?_⟩
      exact absurd (hr name hname i hlast) (by omega)

/-- A parameter that is listed twice and a value too many. -/
theorem compiled_agrees_repeated :
    let s : Settings := { accelerate := .bool false }
    let ps := ["x", "y", "x"]
    let eqs := [Expr.sub (.var "x") (.var "y")]
    s.accelerate.truthy = false ∧ Program.Compilable ps eqs ∧
      ∃ c, Compiled.ofEquations (eqs.map .expr) (textValues ps) s = .ok c ∧
        ∃ out : NdArray Float, c.call (numberValues [1, 2, 5, 7]) = .ok (.array out) ∧
          out.shape = [1] ∧
          List.Forall₂ (fun e y => e.eval (bindings ps [1, 2, 5, 7]) = .ok (.scalar y))
            eqs out.toList := by
  intro s ps eqs
  have h : Program.Compilable ps eqs := by
    refine ⟨fun e he => ?_, fun e he c hc => ?_⟩
    · obtain rfl := List.mem_singleton.mp he
      rfl
    · obtain rfl := List.mem_singleton.mp he
      obtain rfl : Code.binary .sub (.slot 2) (.slot 1) = c := Except.ok.inj hc
      decide
  have hc : Compiled.ofEquations (eqs.map .expr) (textValues ps) s =
      .ok ⟨⟨[.binary .sub (.slot 2) (.slot 1)]⟩, s, false⟩ := rfl
  refine ⟨rfl, h, _, hc, ?_⟩
  refine ((compiled_agrees rfl h).2 _ hc [1, 2, 5, 7]).2 fun e _ name _ i hlast => ?_
  exact hlast.lt.trans (by decide)

end Nabla
