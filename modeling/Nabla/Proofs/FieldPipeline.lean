import Nabla.Proofs.FieldOperators
import Nabla.Proofs.Reports
import Nabla.Proofs.Vocabulary

/-!
# Operations on fields one after the other

Fields, gradients, divergences, curls and Laplacians are made of each other's results and report to logs
that they share. Every operation has a spec that says how many errors it reports; over well-formed
functions none of them fails, however they follow each other.
-/

namespace Nabla

/-! ## Well-formed functions and fields -/

namespace Expr

theorem WellFormed.deriv {e : Expr} (h : e.WellFormed) (x : String) : (e.deriv x).WellFormed :=
  wellFormed_iff_over.mpr (over_deriv x (wellFormed_iff_over.mp h))

theorem WellFormed.simplifyWith {e : Expr} (h : e.WellFormed) (A : Arithmetic Float) :
    (e.simplifyWith A).WellFormed :=
  wellFormed_iff_over.mpr (over_simplifyWith A (wellFormed_iff_over.mp h))

theorem wellFormed_sum {d : Expr} {ds : List Expr} (hd : d.WellFormed) (hds : ∀ e ∈ ds, e.WellFormed) :
    (ds.foldl add d).WellFormed := by
  induction ds generalizing d with
  | nil => exact hd
  | cons e ds ih =>
    obtain ⟨he, hds⟩ := List.forall_mem_cons.mp hds
    have hadd : (add d e).WellFormed := ⟨hd, he⟩
    exact ih hadd hds

end Expr

/-- Every expression of the body is well formed. -/
def Lambda.Sound (f : Lambda) : Prop := ∀ e ∈ f.components, e.WellFormed

namespace Field

/-- Every component is well formed, and the log is one of the book. -/
structure Sound (F : Field) (b : LogBook) : Prop where
  bodies : ∀ e ∈ F.bodies, e.WellFormed
  log_lt : F.log < b.logs.length

theorem Sound.finished {F : Field} {b : LogBook} (h : F.Sound b) : ∀ e ∈ F.bodies, e.obstacle = none :=
  fun e he => (h.bodies e he).obstacle_eq_none

theorem Sound.mono {F : Field} {b b' : LogBook} (h : F.Sound b)
    (hle : b.logs.length ≤ b'.logs.length) : F.Sound b' :=
  ⟨h.bodies, Nat.lt_of_lt_of_le h.log_lt hle⟩

theorem sound_empty {log : LogId} {b : LogBook} (h : log < b.logs.length) : (empty log).Sound b :=
  ⟨fun _ he => (nomatch he), h⟩

/-- The components are scalar functions of one list of parameters, and there are as many of them as
parameters. -/
def Uniform (F : Field) : Prop :=
  F.functions.length = F.parameters.length ∧
    ∀ f ∈ F.functions, f.parameters = F.parameters ∧ ∃ e, f.body = .scalar e

theorem uniform (F : Field) : F.Uniform := by
  refine ⟨?_, List.forall_mem_map.mpr fun e _ => ⟨rfl, e, rfl⟩⟩
  rw [functions, List.length_map, F.balanced]

theorem ofLambda_toLambda (F : Field) (log : LogId) :
    ofLambda F.toLambda log = pure ⟨F.parameters, F.bodies, log, F.balanced⟩ :=
  ofLambda_array F.balanced log

/-! ## The operators -/

section Operators

variable {f : Lambda} {F : Field} {b : LogBook} {log : LogId}

theorem ofLambda_succeeds (hf : f.Sound) (h : log < b.logs.length) :
    Succeeds (liftM (ofLambda f log)) b log
      (if f.isEmpty = true ∨ f.parameters.length ≠ f.components.length then 1 else 0)
      fun F b' => F.Sound b' ∧ F.log = log := by
  have hempty : ∀ b', b.logs.length ≤ b'.logs.length → (empty log).Sound b' ∧ (empty log).log = log :=
    fun b' hle => ⟨sound_empty (Nat.lt_of_lt_of_le h hle), rfl⟩
  unfold ofLambda
  by_cases hnone : f.isEmpty = true
  · rw [if_pos hnone, if_pos (Or.inl hnone)]
    exact Succeeds.refuse h _ _ _ _ hempty
  · rw [if_neg hnone]
    by_cases hlen : f.parameters.length = f.components.length
    · rw [dif_pos hlen, if_neg (by simp [hnone, hlen])]
      exact Succeeds.of_run rfl ⟨⟨hf, h⟩, rfl⟩
    · rw [dif_neg hlen, if_pos (Or.inr hlen)]
      exact Succeeds.refuse h _ _ _ _ hempty

theorem gradient_succeeds (hf : f.Sound) (h : log < b.logs.length) :
    Succeeds (gradient f log) b log (if f.isEmpty = true ∨ f.isArray = true then 1 else 0)
      fun F b' => F.Sound b' ∧ F.log = log ∧
        F.dim = if f.isEmpty = true ∨ f.isArray = true then 0 else f.parameters.length := by
  have hempty : ∀ b', b.logs.length ≤ b'.logs.length →
      (empty log).Sound b' ∧ (empty log).log = log ∧ (empty log).dim = 0 :=
    fun b' hle => ⟨sound_empty (Nat.lt_of_lt_of_le h hle), rfl, rfl⟩
  obtain ⟨ps, body⟩ := f
  cases body with
  | none | array es => exact Succeeds.refuse h _ _ _ _ hempty
  | scalar e =>
    have he : e.WellFormed := hf e List.mem_cons_self
    refine Succeeds.of_run (gradient_scalar he.obstacle_eq_none ps log b) ⟨⟨?_, h⟩, rfl, ?_⟩
    · exact List.forall_mem_map.mpr fun p _ => he.deriv p
    · simp [ofPartials, dim, Lambda.isEmpty, Lambda.isArray]

theorem divergence_succeeds (hF : F.Sound b) :
    Succeeds F.divergence b F.log (if F.dim = 0 then 1 else 0) fun f _ => f.Sound := by
  have hds : ∀ d ∈ (F.bodies.zip F.parameters).map (fun q => q.1.deriv q.2), d.WellFormed :=
    List.forall_mem_map.mpr fun q hq => (hF.bodies q.1 (List.of_mem_zip hq).1).deriv q.2
  have hlen : ((F.bodies.zip F.parameters).map fun q => q.1.deriv q.2).length = F.dim := by
    simp [dim, F.balanced]
  unfold divergence
  rw [ownDerivatives_of_finished hF.finished]
  cases hcases : (F.bodies.zip F.parameters).map (fun q => q.1.deriv q.2) with
  | nil =>
    rw [hcases] at hlen
    rw [if_pos (show F.dim = 0 from hlen.symm)]
    exact Succeeds.refuse hF.log_lt _ _ _ _ fun _ _ _ he => nomatch he
  | cons d ds =>
    rw [hcases] at hds hlen
    obtain ⟨hd, hds⟩ := List.forall_mem_cons.mp hds
    rw [if_neg (by rw [← hlen]; simp)]
    exact Succeeds.of_run rfl (List.forall_mem_singleton.mpr (Expr.wellFormed_sum hd hds))

theorem laplacian_succeeds (hf : f.Sound) (h : log < b.logs.length) :
    Succeeds (laplacian f log) b log
      (if f.isEmpty = true ∨ f.isArray = true then 2 else if f.parameters.length = 0 then 1 else 0)
      fun f _ => f.Sound := by
  have hbind : Succeeds (laplacian f log) b log
      ((if f.isEmpty = true ∨ f.isArray = true then 1 else 0) +
        if (if f.isEmpty = true ∨ f.isArray = true then 0 else f.parameters.length) = 0 then 1 else 0)
      fun f _ => f.Sound := by
    refine (gradient_succeeds hf h).bind fun F b' _ ⟨hF, hlog, hdim⟩ => ?_
    rw [← hdim, ← hlog]
    exact divergence_succeeds hF
  -- A gradient that fails has no components, so the divergence reports once more.
  by_cases hfail : f.isEmpty = true ∨ f.isArray = true
  · simpa [hfail] using hbind
  · simpa [hfail] using hbind

theorem curl_succeeds (hF : F.Sound b) :
    Succeeds F.curl b F.log (if F.dim = 3 then 0 else 1) fun G b' => G.Sound b' ∧ G.log = F.log := by
  by_cases hdim : F.dim = 3
  · obtain ⟨ps, es, log, hbal⟩ := F
    obtain ⟨f, g, h, rfl⟩ := List.length_eq_three.mp hdim
    obtain ⟨x, y, z, rfl⟩ := List.length_eq_three.mp (hbal.trans hdim)
    have hwf : f.WellFormed ∧ g.WellFormed ∧ h.WellFormed := by simpa using hF.bodies
    obtain ⟨hf, hg, hh⟩ := hwf
    rw [if_pos hdim]
    refine Succeeds.of_run (curl_three hf.obstacle_eq_none hg.obstacle_eq_none hh.obstacle_eq_none b)
      ⟨⟨?_, hF.log_lt⟩, rfl⟩
    simp only [rotations, List.forall_mem_cons]
    exact ⟨⟨hh.deriv y, hg.deriv z⟩, ⟨hh.deriv x, hf.deriv z⟩, ⟨hg.deriv x, hf.deriv y⟩,
      fun _ he => nomatch he⟩
  · rw [if_neg hdim]
    unfold curl
    split
    · rename_i hbodies _
      exact (hdim (by rw [dim, hbodies]; rfl)).elim
    · refine Succeeds.refuse hF.log_lt _ _ _ _ fun b' hle => ⟨?_, rfl⟩
      exact sound_empty (Nat.lt_of_lt_of_le hF.log_lt hle)

theorem simplify_succeeds (hF : F.Sound b) :
    Succeeds F.simplify b F.log 0 fun G b' => G.Sound b' ∧ G.log = F.log := by
  obtain ⟨G, hrun, -, hbodies, hlog⟩ := simplify_of_finished hF.finished b
  refine Succeeds.of_run hrun ⟨⟨?_, hlog ▸ hF.log_lt⟩, hlog⟩
  rw [hbodies]
  exact List.forall_mem_map.mpr fun e he => (hF.bodies e he).simplifyWith .double

end Operators

end Field

/-! ## Commands -/

/-- One operation on what has been made so far. Where a log may be given, a new one is opened if there
is none. -/
inductive Command where
  | construct (f : Lambda) (log : Option LogId)
  | gradient (f : Lambda) (log : Option LogId)
  | laplacian (f : Lambda) (log : Option LogId)
  | divergence (F : Field)
  | curl (F : Field)
  | simplify (F : Field)
  | jacobian (F : Field)
  | toLambda (F : Field)

/-- What an operation gives. -/
inductive Outcome where
  | field (F : Field)
  | lambda (f : Lambda)
  | rows (matrix : List (List Expr))

namespace Command

def run : Command → Reporting Outcome
  | construct f log => do return .field (← Field.ofLambda f (← LogBook.orFresh log))
  | gradient f log => do return .field (← Field.gradient f (← LogBook.orFresh log))
  | laplacian f log => do return .lambda (← Field.laplacian f (← LogBook.orFresh log))
  | divergence F => do return .lambda (← F.divergence)
  | curl F => do return .field (← F.curl)
  | simplify F => do return .field (← F.simplify)
  | jacobian F => do return .rows (← F.jacobian)
  | toLambda F => return .lambda F.toLambda

/-- The log that an operation reports to. -/
def log (b : LogBook) : Command → LogId
  | construct _ log | gradient _ log | laplacian _ log => b.given log
  | divergence F | curl F | simplify F | jacobian F | toLambda F => F.log

/-- Whether an operation makes a field. -/
def MakesField : Command → Prop
  | construct _ _ | gradient _ _ | curl _ | simplify _ => True
  | laplacian _ _ | divergence _ | jacobian _ | toLambda _ => False

/-- How many errors an operation reports. -/
def reports : Command → Nat
  | construct f _ =>
    if f.isEmpty = true ∨ f.parameters.length ≠ f.components.length then 1 else 0
  | gradient f _ => if f.isEmpty = true ∨ f.isArray = true then 1 else 0
  | laplacian f _ =>
    if f.isEmpty = true ∨ f.isArray = true then 2 else if f.parameters.length = 0 then 1 else 0
  | divergence F => if F.dim = 0 then 1 else 0
  | curl F => if F.dim = 3 then 0 else 1
  | simplify _ | jacobian _ | toLambda _ => 0

end Command

/-- The logs, and the functions and fields that have been made so far. -/
structure Workspace where
  book : LogBook
  lambdas : List Lambda
  fields : List Field

namespace Workspace

/-- Every function and every field is well formed. -/
structure Sound (s : Workspace) : Prop where
  lambdas : ∀ f ∈ s.lambdas, f.Sound
  fields : ∀ F ∈ s.fields, F.Sound s.book

/-- The function or field of the command has been made, and the log is there if one is given. -/
def Offers (s : Workspace) : Command → Prop
  | .construct f log | .gradient f log | .laplacian f log =>
    f ∈ s.lambdas ∧ ∀ id ∈ log, id < s.book.logs.length
  | .divergence F | .curl F | .simplify F | .jacobian F | .toLambda F => F ∈ s.fields

/-- What is there after an operation. -/
def add (s : Workspace) (out : Outcome) (book : LogBook) : Workspace :=
  match out with
  | .field F => { s with book, fields := s.fields ++ [F] }
  | .lambda f => { s with book, lambdas := s.lambdas ++ [f] }
  | .rows _ => { s with book }

/-- A sequence of operations leads from one workspace to another. Each is listed with the log that it
reports to. -/
inductive Runs : Workspace → List (Command × LogId) → Workspace → Prop where
  | nil (s : Workspace) : Runs s [] s
  | cons {s s' : Workspace} {c : Command} {out : Outcome} {b : LogBook}
      {steps : List (Command × LogId)} (hc : s.Offers c)
      (hrun : c.run.run.run s.book = (.ok out, b)) (hrest : Runs (s.add out b) steps s') :
      Runs s ((c, c.log s.book) :: steps) s'

/-- How many errors a sequence of operations reports to a log. -/
def reported (id : LogId) : List (Command × LogId) → Nat
  | [] => 0
  | (c, log) :: steps => LogBook.only log c.reports id + reported id steps

end Workspace

/-- What an operation gives is well formed, and a field reports to the log that the operation does. -/
def Outcome.Sound (log : LogId) : Outcome → LogBook → Prop
  | field F, b => F.Sound b ∧ F.log = log
  | lambda f, _ => f.Sound
  | rows matrix, _ => ∀ row ∈ matrix, ∀ e ∈ row, e.WellFormed

theorem Command.succeeds {s : Workspace} {c : Command} (hs : s.Sound) (hc : s.Offers c) :
    Succeeds c.run s.book (c.log s.book) c.reports
      fun out b => out.Sound (c.log s.book) b ∧ (c.MakesField → ∃ G, out = .field G) := by
  cases c with
  | construct f log =>
    refine Succeeds.orFresh hc.2 fun b hlt => ?_
    refine (Field.ofLambda_succeeds (hs.lambdas f hc.1) hlt).map Outcome.field fun F b' hF => ?_
    exact ⟨hF, fun _ => ⟨F, rfl⟩⟩
  | gradient f log =>
    refine Succeeds.orFresh hc.2 fun b hlt => ?_
    refine (Field.gradient_succeeds (hs.lambdas f hc.1) hlt).map Outcome.field fun F b' hF => ?_
    exact ⟨⟨hF.1, hF.2.1⟩, fun _ => ⟨F, rfl⟩⟩
  | laplacian f log =>
    refine Succeeds.orFresh hc.2 fun b hlt => ?_
    refine (Field.laplacian_succeeds (hs.lambdas f hc.1) hlt).map Outcome.lambda fun g b' hg => ?_
    exact ⟨hg, False.elim⟩
  | divergence F =>
    refine (Field.divergence_succeeds (hs.fields F hc)).map Outcome.lambda fun f b' hf => ?_
    exact ⟨hf, False.elim⟩
  | curl F =>
    refine (Field.curl_succeeds (hs.fields F hc)).map Outcome.field fun G b' hG => ?_
    exact ⟨hG, fun _ => ⟨G, rfl⟩⟩
  | simplify F =>
    refine (Field.simplify_succeeds (hs.fields F hc)).map Outcome.field fun G b' hG => ?_
    exact ⟨hG, fun _ => ⟨G, rfl⟩⟩
  | jacobian F =>
    have hF := hs.fields F hc
    show Succeeds (liftM F.jacobian >>= _) _ _ _ _
    rw [Field.jacobian_of_finished hF.finished]
    refine .of_run rfl ⟨?_, False.elim⟩
    refine List.forall_mem_map.mpr fun e he => List.forall_mem_map.mpr fun p _ => ?_
    exact (hF.bodies e he).deriv p
  | toLambda F => exact .of_run rfl ⟨(hs.fields F hc).bodies, False.elim⟩

namespace Workspace

theorem Sound.add {s : Workspace} {out : Outcome} {b : LogBook} {log : LogId} (hs : s.Sound)
    (hle : s.book.logs.length ≤ b.logs.length) (hout : out.Sound log b) : (s.add out b).Sound := by
  have hfields : ∀ F ∈ s.fields, F.Sound b := fun F hF => (hs.fields F hF).mono hle
  cases out with
  | field F =>
    exact ⟨hs.lambdas, List.forall_mem_append.mpr ⟨hfields, List.forall_mem_singleton.mpr hout.1⟩⟩
  | lambda f =>
    have hf : f.Sound := hout
    exact ⟨List.forall_mem_append.mpr ⟨hs.lambdas, List.forall_mem_singleton.mpr hf⟩, hfields⟩
  | rows _ => exact ⟨hs.lambdas, hfields⟩

theorem Runs.sound {s s' : Workspace} {steps : List (Command × LogId)} (h : Runs s steps s')
    (hs : s.Sound) : s'.Sound ∧ LogBook.Grew (fun id => reported id steps) s.book s'.book := by
  induction h with
  | nil s => exact ⟨hs, .refl _⟩
  | @cons s s' c out b steps hc hrun hrest ih =>
    obtain ⟨out', b', hrun', hgrew, hout, -⟩ := Command.succeeds hs hc
    obtain ⟨hok, rfl⟩ := Prod.mk.inj (hrun'.symm.trans hrun)
    obtain rfl := Except.ok.inj hok
    obtain ⟨hs', hgrew'⟩ := ih (hs.add hgrew.logs_le hout)
    have hbook : (s.add out' b').book = b' := by cases out' <;> rfl
    rw [hbook] at hgrew'
    exact ⟨hs', hgrew.trans hgrew'⟩

end Workspace

open Workspace in
/-- Whatever has been done with well-formed functions and fields before: no operation that can be asked
for fails, every field is uniform and is made again of its function, curls and simplified fields keep
the log of the field, and the logs have gained exactly the errors of the operations that use them. -/
theorem field_pipelines_report_failures {s s' : Workspace} {steps : List (Command × LogId)}
    (hs : s.Sound) (hrun : Runs s steps s') :
    s'.Sound ∧ LogBook.Grew (fun id => reported id steps) s.book s'.book ∧
      (∀ F ∈ s'.fields, F.Uniform ∧ ∀ log b, ∃ G, (Field.ofLambda F.toLambda log).run b = (G, b) ∧
        G.parameters = F.parameters ∧ G.bodies = F.bodies) ∧
      ∀ c, s'.Offers c → ∃ out b, c.run.run.run s'.book = (.ok out, b) ∧
        LogBook.Grew (LogBook.only (c.log s'.book) c.reports) s'.book b ∧
        ∀ F, c = .curl F ∨ c = .simplify F → ∃ G, out = .field G ∧ G.log = F.log := by
  obtain ⟨hs', hgrew⟩ := hrun.sound hs
  refine ⟨hs', hgrew, fun F _ => ⟨F.uniform, fun log b => ?_⟩, fun c hc => ?_⟩
  · exact ⟨⟨F.parameters, F.bodies, log, F.balanced⟩, by rw [Field.ofLambda_toLambda]; rfl, rfl, rfl⟩
  · obtain ⟨out, b, hout, hgrew, hsound, hfield⟩ := Command.succeeds hs' hc
    refine ⟨out, b, hout, hgrew, ?_⟩
    rintro F (rfl | rfl)
    · obtain ⟨G, rfl⟩ := hfield trivial
      exact ⟨G, rfl, hsound.2⟩
    · obtain ⟨G, rfl⟩ := hfield trivial
      exact ⟨G, rfl, hsound.2⟩

open Workspace in
/-- The Laplacian of an array reports twice, and that of a function without parameters once, here to
the same log. -/
theorem field_pipelines_report_failures_laplacians :
    let f : Lambda := ⟨["x"], .array [.var "x"]⟩
    let g : Lambda := ⟨[], .scalar (.const 1)⟩
    let s : Workspace := ⟨{ logs := [{}] }, [f, g], []⟩
    s.Sound ∧ ∃ s', Runs s [(.laplacian f (some 0), 0), (.laplacian g (some 0), 0)] s' ∧
      (s'.book.get 0).entries.length = 3 := by
  intro f g s
  have hs : s.Sound := by
    refine ⟨?_, fun _ hF => nomatch hF⟩
    simp [s, f, g, Lambda.Sound, Lambda.components, Expr.WellFormed]
  have hf : s.Offers (.laplacian f (some 0)) := by simp [Offers, s]
  obtain ⟨-, -, -, hnext⟩ := field_pipelines_report_failures hs (.nil s)
  obtain ⟨out, b, hrun, hgrew, -⟩ := hnext _ hf
  have hg : (s.add out b).Offers (.laplacian g (some 0)) := by
    have hlogs : 1 ≤ b.logs.length := hgrew.logs_le
    have hlogs : 0 < b.logs.length := hlogs
    cases out <;> simp [Offers, Workspace.add, s, hlogs]
  obtain ⟨-, -, -, hnext⟩ := field_pipelines_report_failures hs (.cons hf hrun (.nil _))
  obtain ⟨out', b', hrun', -⟩ := hnext _ hg
  have hall := Runs.cons hf hrun (.cons hg hrun' (.nil _))
  obtain ⟨-, hgrew, -⟩ := field_pipelines_report_failures hs hall
  obtain ⟨es, hes, hlen, -⟩ := hgrew.gains 0
  refine ⟨hs, _, hall, ?_⟩
  rw [hes]
  exact hlen

end Nabla
