import Nabla.Fault
import Nabla.Program.Basic
import Nabla.Expr.Eval
import Nabla.Proofs.Double.Real
import Nabla.Proofs.Places
import Nabla.Proofs.Sequence
import Nabla.Proofs.Tree

/-!
# Generated code computes what evaluation computes

Code is made of an expression exactly when the expression can be evaluated once all parameters have
values, and the code fails at run time exactly when it needs a place for which there is no value.
Otherwise the two results are the same number.
-/

namespace Nabla

/-! ## Failing alike -/

/-- The fault of the calculus that a cause of failure is, and the name that it is about. -/
def Error.fault? : Error → Option (Fault × String)
  | unbound name | notParameter name => some (.unboundVariable, name)
  | unknownFunction name => some (.unknownFunction, name)
  | _ => none

/-- Two causes of failure that are the same fault about the same name. -/
def SameFault (err err' : Error) : Prop :=
  ∃ fault name, err.fault? = some (fault, name) ∧ err'.fault? = some (fault, name)

/-- Two computations of which both succeed or both fail with the same fault. -/
inductive FailAlike {α β : Type} : Except Error α → Except Error β → Prop
  | ok (a : α) (b : β) : FailAlike (.ok a) (.ok b)
  | error {err err' : Error} : SameFault err err' → FailAlike (.error err) (.error err')

theorem FailAlike.bind {α β γ δ : Type} {m : Except Error α} {m' : Except Error β}
    {f : α → Except Error γ} {g : β → Except Error δ} (h : FailAlike m m')
    (hfg : ∀ a b, FailAlike (f a) (g b)) : FailAlike (m >>= f) (m' >>= g) := by
  cases h with
  | ok a b => exact hfg a b
  | error herr => exact .error herr

variable {A : Arithmetic Float} {ps : List String}

theorem emit_failAlike {ρ : String → Option Float} (hρ : ∀ name, (ρ name).isSome ↔ name ∈ ps)
    {e : Expr} (h : e.obstacle = none) :
    FailAlike (e.emit ps) (e.evalWith (.scalar A id) ρ) := by
  induction e with
  | const x => exact .ok _ _
  | var name =>
    unfold Expr.emit Expr.evalWith
    cases hi : lastIndex? name ps with
    | some i =>
      have hmem : name ∈ ps := List.mem_iff_getElem?.mpr ⟨i, (lastIndex?_eq_some_iff.mp hi).1⟩
      obtain ⟨v, hv⟩ := Option.isSome_iff_exists.mp ((hρ name).mpr hmem)
      rw [hv]
      exact .ok _ _
    | none =>
      have hmem : name ∉ ps := lastIndex?_eq_none_iff.mp hi
      rw [← hρ, Option.not_isSome_iff_eq_none] at hmem
      rw [hmem]
      exact .error ⟨.unboundVariable, name, rfl, rfl⟩
  | neg a iha | call f a iha => exact (iha h).bind fun _ _ => .ok _ _
  | binary op a b iha ihb | powCall a b iha ihb =>
    obtain ⟨ha, hb⟩ := Expr.orElse_eq_none_iff.mp h
    exact (iha ha).bind fun _ _ => (ihb hb).bind fun _ _ => .ok _ _
  | unknown name a rest => exact .error ⟨.unknownFunction, name, rfl, rfl⟩
  | blank | pair | datum | oddVar => exact nomatch h

/-! ## Running code -/

/-- There are values for all places that the code of an expression reads. -/
def InReach (ps : List String) (size : Nat) (e : Expr) : Prop :=
  ∀ name ∈ e.variableNames, ∀ i, LastAt ps name i → i < size

theorem inReach_var {name : String} {size i : Nat} (h : LastAt ps name i) :
    InReach ps size (.var name) ↔ i < size := by
  constructor
  · intro hr
    exact hr name (Expr.mem_variableNames_var.mpr rfl) i h
  · intro hi y hy j hj
    obtain rfl := Expr.mem_variableNames_var.mp hy
    rw [← lastIndex?_eq_some_iff] at h hj
    obtain rfl : i = j := Option.some.inj (h.symm.trans hj)
    exact hi

theorem inReach_binary (op : BinOp) {a b : Expr} {size : Nat} :
    InReach ps size (.binary op a b) ↔ InReach ps size a ∧ InReach ps size b := by
  unfold InReach
  simp only [Expr.mem_variableNames_binary]
  constructor
  · intro h
    exact ⟨fun y hy => h y (.inl hy), fun y hy => h y (.inr hy)⟩
  · rintro ⟨ha, hb⟩ y (hy | hy)
    · exact ha y hy
    · exact hb y hy

/-- A run that gives the number that was expected where it has all values it reads, and where it has
not stops at a place that is not there. -/
inductive Computes (reach : Prop) (size : Nat) : Except Error Float → Except Error Float → Prop
  | value (v : Float) : reach → Computes reach size (.ok v) (.ok v)
  | missing (i : Nat) (expected : Except Error Float) :
    ¬ reach → Computes reach size (.error (.outOfBounds i size)) expected

theorem Computes.of_reach {P : Prop} {size : Nat} {m m' : Except Error Float}
    (h : Computes P size m m') (hp : P) : ∃ v, m = .ok v ∧ m' = .ok v := by
  cases h with
  | value v => exact ⟨v, rfl, rfl⟩
  | missing i r hn => exact absurd hp hn

theorem Computes.of_not_reach {P : Prop} {size : Nat} {m m' : Except Error Float}
    (h : Computes P size m m') (hn : ¬ P) : ∃ i : Nat, m = .error (.outOfBounds i size) := by
  cases h with
  | value v hp => exact absurd hp hn
  | missing i => exact ⟨i, rfl⟩

theorem Computes.congr {P Q : Prop} {size : Nat} {m m' : Except Error Float}
    (h : Computes P size m m') (hpq : P ↔ Q) : Computes Q size m m' :=
  propext hpq ▸ h

theorem Computes.bind {P Q : Prop} {size : Nat} {m m' : Except Error Float}
    {f g : Float → Except Error Float} (h : Computes P size m m')
    (hfg : ∀ v, Computes Q size (f v) (g v)) : Computes (P ∧ Q) size (m >>= f) (m' >>= g) := by
  cases h with
  | value v hp =>
    show Computes (P ∧ Q) size (f v) (g v)
    generalize f v = r, g v = r', hfg v = hr
    cases hr with
    | value w hq => exact .value w ⟨hp, hq⟩
    | missing i r' hq => exact .missing i r' fun h => hq h.2
  | missing i r hp => exact .missing i _ fun h => hp h.1

theorem Computes.map {P : Prop} {size : Nat} {m m' : Except Error Float} (h : Computes P size m m')
    (f : Float → Float) : Computes P size (m >>= fun v => .ok (f v)) (m' >>= fun v => .ok (f v)) := by
  cases h with
  | value v hp => exact .value (f v) hp
  | missing i r hp => exact .missing i _ hp

/-- The constant of the opposite number is the negation of the constant. -/
def Interp.Negates {β : Type u} (I : Interp β) : Prop :=
  ∀ x : Float, x.isNaN = false → I.const (-x) = I.neg (I.const x)

theorem run_ofFloat {β : Type u} {I : Interp β} (hI : I.Negates) (x : Float) (values : List β) :
    (Code.ofFloat x).run I values = .ok (I.const x) := by
  unfold Code.ofFloat
  split_ifs with hnan hinf hpos
  · rw [Double.eq_nan hnan]
    rfl
  · rw [Double.eq_infinity hinf hpos]
    rfl
  · rw [Double.eq_neg_infinity hinf hpos, hI _ (by decide +kernel)]
    rfl
  · rfl

theorem run_emit (hA : ∀ x, A.neg x = -x) {values : List Float} {ρ : String → Option Float}
    (hρ : ∀ name i, LastAt ps name i → i < values.length → ρ name = values[i]?) {e : Expr}
    (h : e.obstacle = none) {c : Code} (hc : e.emit ps = .ok c) :
    Computes (InReach ps values.length e) values.length (c.run (.scalar A id) values)
      (e.evalWith (.scalar A id) ρ) := by
  -- a run stops at its first missing place, so the operands decide in their order
  induction e generalizing c with
  | const x =>
    obtain rfl : Code.ofFloat x = c := Except.ok.inj hc
    rw [run_ofFloat fun x _ => (hA x).symm]
    exact .value x fun _ hy => nomatch hy
  | var name =>
    unfold Expr.emit at hc
    split at hc
    · rename_i i hi
      have hlast := lastIndex?_eq_some_iff.mp hi
      obtain rfl : Code.slot i = c := Except.ok.inj hc
      rw [Code.run, inReach_var hlast]
      by_cases hlt : i < values.length
      · rw [Expr.evalWith, hρ name i hlast hlt, List.getElem?_eq_getElem hlt]
        exact .value _ hlt
      · rw [List.getElem?_eq_none (by omega)]
        exact .missing i _ hlt
    · cases hc
  | neg a iha | call f a iha =>
    obtain ⟨x, hx, hc⟩ := bind_eq_ok_iff.mp hc
    cases hc
    exact (iha h hx).map _
  | binary op a b iha ihb =>
    obtain ⟨ha, hb⟩ := Expr.orElse_eq_none_iff.mp h
    obtain ⟨x, hx, hc⟩ := bind_eq_ok_iff.mp hc
    obtain ⟨y, hy, hc⟩ := bind_eq_ok_iff.mp hc
    cases hc
    exact ((iha ha hx).bind fun v => (ihb hb hy).map _).congr (inReach_binary op).symm
  | powCall a b iha ihb =>
    obtain ⟨ha, hb⟩ := Expr.orElse_eq_none_iff.mp h
    obtain ⟨x, hx, hc⟩ := bind_eq_ok_iff.mp hc
    obtain ⟨y, hy, hc⟩ := bind_eq_ok_iff.mp hc
    cases hc
    exact ((iha ha hx).bind fun v => (ihb hb hy).map _).congr (inReach_binary .pow).symm
  | unknown name a rest => cases hc
  | blank | pair | datum | oddVar => exact nomatch h

/-! ## Programs -/

theorem readable_ofFloat (x : Float) : (Code.ofFloat x).readable = true := by
  unfold Code.ofFloat
  split_ifs <;> rfl

theorem readable_of_emit {e : Expr} (h : e.obstacle = none) {c : Code} (hc : e.emit ps = .ok c) :
    c.readable = true := by
  induction e generalizing c with
  | const x =>
    obtain rfl : Code.ofFloat x = c := Except.ok.inj hc
    exact readable_ofFloat x
  | var name =>
    unfold Expr.emit at hc
    split at hc <;> cases hc
    rfl
  | neg a iha | call f a iha =>
    obtain ⟨x, hx, hc⟩ := bind_eq_ok_iff.mp hc
    cases hc
    show x.readable = true
    exact iha h hx
  | binary op a b iha ihb | powCall a b iha ihb =>
    obtain ⟨ha, hb⟩ := Expr.orElse_eq_none_iff.mp h
    obtain ⟨x, hx, hc⟩ := bind_eq_ok_iff.mp hc
    obtain ⟨y, hy, hc⟩ := bind_eq_ok_iff.mp hc
    cases hc
    rw [Code.readable, iha ha hx, ihb hb hy]
    rfl
  | unknown name a rest => cases hc
  | blank | pair | datum | oddVar => exact nomatch h

theorem finished_of_emit {e : Expr} (h : e.simplifyObstacle = none) {c : Code}
    (hc : e.emit ps = .ok c) : e.obstacle = none := by
  induction e generalizing c with
  | const | var => rfl
  | neg a iha | call f a iha =>
    obtain ⟨x, hx, -⟩ := bind_eq_ok_iff.mp hc
    exact iha h hx
  | binary op a b iha ihb | powCall a b iha ihb =>
    obtain ⟨ha, hb⟩ := Expr.orElse_eq_none_iff.mp h
    obtain ⟨x, hx, hc⟩ := bind_eq_ok_iff.mp hc
    obtain ⟨y, hy, -⟩ := bind_eq_ok_iff.mp hc
    exact Expr.orElse_eq_none_iff.mpr ⟨iha ha hx, ihb hb hy⟩
  | unknown | oddVar => cases hc
  | blank | pair | datum => cases h

namespace Program

theorem check_eq_ok {p : Program} (hd : ∀ c ∈ p.lines, c.depth ≤ maxDepth)
    (hr : ∀ c ∈ p.lines, c.readable = true) : p.check = .ok p := by
  have h1 : p.lines.findIdx? (fun c => maxDepth < c.depth) = none := by
    rw [List.findIdx?_eq_none_iff]
    intro c hc
    simpa using hd c hc
  have h2 : p.lines.findIdx? (fun c => !c.readable) = none := by
    rw [List.findIdx?_eq_none_iff]
    intro c hc
    simp [hr c hc]
  unfold check
  rw [h1, h2]

/-- Finished equations of which no code is nested too deep. -/
structure Compilable (ps : List String) (eqs : List Expr) : Prop where
  finished : ∀ e ∈ eqs, e.obstacle = none
  shallow : ∀ e ∈ eqs, ∀ c, e.emit ps = .ok c → c.depth ≤ maxDepth

variable {eqs : List Expr}

theorem compile_eq_map (h : Compilable ps eqs) :
    compile eqs ps = (eqs.mapM (Expr.emit ps)).map Program.mk := by
  unfold compile compileWith
  cases hl : eqs.mapM (Expr.emit ps) with
  | error err => rfl
  | ok lines =>
    have hf := mapM_eq_ok_iff.mp hl
    have hline : ∀ c ∈ lines, ∃ e ∈ eqs, e.emit ps = .ok c := fun c hc => exists_left_of_mem hf hc
    refine check_eq_ok ?_ ?_
    · intro c hc
      obtain ⟨e, he, hec⟩ := hline c hc
      exact h.shallow e he c hec
    · intro c hc
      obtain ⟨e, he, hec⟩ := hline c hc
      exact readable_of_emit (h.finished e he) hec

theorem eq_of_check_eq_ok {p q : Program} (h : p.check = .ok q) : q = p := by
  unfold check at h
  split at h
  · cases h
  · split at h <;> cases h
    rfl

theorem forall₂_emit {p : Program} (hp : compile eqs ps = .ok p) :
    List.Forall₂ (fun e c => e.emit ps = .ok c) eqs p.lines := by
  obtain ⟨lines, hl, hp⟩ := bind_eq_ok_iff.mp hp
  rw [eq_of_check_eq_ok hp]
  exact mapM_eq_ok_iff.mp hl

section Run

variable {values : List Float} {ρ : String → Option Float} {lines : List Code}

theorem run_of_inReach
    (h : List.Forall₂ (fun e c => Computes (InReach ps values.length e) values.length
      (c.run (.scalar A id) values) (e.evalWith (.scalar A id) ρ)) eqs lines)
    (hr : ∀ e ∈ eqs, InReach ps values.length e) :
    ∃ out, runIn A ⟨lines⟩ values = .ok out ∧
      List.Forall₂ (fun e y => e.evalWith (.scalar A id) ρ = .ok y) eqs out := by
  induction h with
  | nil => exact ⟨[], rfl, .nil⟩
  | @cons e c eqs lines hc _ ih =>
    obtain ⟨he, hes⟩ := List.forall_mem_cons.mp hr
    obtain ⟨out, hout, hf⟩ := ih hes
    obtain ⟨v, hv, hev⟩ := hc.of_reach he
    refine ⟨v :: out, ?_, .cons hev hf⟩
    unfold runIn runWith at hout ⊢
    rw [List.mapM_cons, hv, hout]
    rfl

theorem run_of_not_inReach
    (h : List.Forall₂ (fun e c => Computes (InReach ps values.length e) values.length
      (c.run (.scalar A id) values) (e.evalWith (.scalar A id) ρ)) eqs lines)
    (hn : ∃ e ∈ eqs, ¬ InReach ps values.length e) :
    ∃ i : Nat, runIn A ⟨lines⟩ values = .error (.outOfBounds i values.length) := by
  induction h with
  | nil =>
    obtain ⟨e, he, -⟩ := hn
    exact nomatch he
  | @cons e c eqs lines hc _ ih =>
    unfold runIn runWith at ih ⊢
    rw [List.mapM_cons]
    by_cases he : InReach ps values.length e
    · obtain ⟨v, hv, -⟩ := hc.of_reach he
      obtain ⟨e', he', hn'⟩ := hn
      rcases List.mem_cons.mp he' with rfl | he'
      · exact absurd he hn'
      · obtain ⟨i, hi⟩ := ih ⟨e', he', hn'⟩
        refine ⟨i, ?_⟩
        rw [hv, hi]
        rfl
    · obtain ⟨i, hi⟩ := hc.of_not_reach he
      refine ⟨i, ?_⟩
      rw [hi]
      rfl

end Run

end Program

end Nabla
