import Nabla.Proofs.NormalForm

/-!
# How deep a pass goes

Below a logarithm of an exponential stands an expression that has been simplified already. A pass may
just as well take it up again: it finds nothing to do there, and since trees only shrink it goes no
deeper than the tree had nodes from the start.
-/

namespace Nabla.Expr

section Depth

variable (A : Arithmetic Float)

/-- The rule for a call, where `again` simplifies what a logarithm and an exponential have covered. -/
def callRule (again : Expr → Option Expr) : Fn → Expr → Option Expr
  | .log, call .exp u => again u
  | .exp, call .log u => again u
  | f, a => some (simplifyCall A f a)

/-- One pass that takes up again what a rule uncovers. It gives up where calls are nested more than
`n` deep. Unfinished nodes are left as they are. -/
def passWithin : Nat → Expr → Option Expr
  | 0, _ => none
  | n + 1, e => match e with
    | neg a => do return simplifyNeg A (← passWithin n a)
    | binary op a b => do return simplifyBinary A op (← passWithin n a) (← passWithin n b)
    | call f a => do callRule A (passWithin n) f (← passWithin n a)
    | powCall a b => do return simplifyPow A powCall (← passWithin n a) (← passWithin n b)
    | unknown name a rest => do return unknown name (← passWithin n a) (← rest.mapM (passWithin n))
    | e => some e

theorem callRule_eq {again : Expr → Option Expr} {a : Expr} (f : Fn)
    (h : ∀ g u, a = call g u → again u = some u) :
    callRule A again f a = some (simplifyCall A f a) := by
  unfold callRule
  split
  · exact h .exp _ rfl
  · exact h .log _ rfl
  · rfl

theorem size_simplifyWith_le (e : Expr) : (simplifyWith A e).size ≤ e.size := by
  rcases size_simplifyWith A e with h | h
  · exact Nat.le_of_eq (congrArg size h)
  · exact Nat.le_of_lt h

theorem under_simplified_call {a u : Expr} {g : Fn} (h : a.obstacle = none)
    (hu : simplifyWith A a = call g u) :
    u.obstacle = none ∧ u.size < a.size ∧ simplifyWith A u = u := by
  have hmem : u ∈ (simplifyWith A a).children := by simp [hu, children]
  refine ⟨finished_of_mem_children (finished_simplifyWith h) hmem, ?_, ?_⟩
  · exact Nat.lt_of_lt_of_le (size_lt_of_mem_children hmem) (size_simplifyWith_le A a)
  · exact simplifyWith_of_normal A ((normal_iff.mp (normal_simplifyWith A h)).2 u hmem)

theorem mapM_eq_some_map {α β : Type} {f : α → Option β} {g : α → β} {xs : List α}
    (h : ∀ x ∈ xs, f x = some (g x)) : xs.mapM f = some (xs.map g) := by
  induction xs with
  | nil => rfl
  | cons x xs ih =>
    obtain ⟨hx, hxs⟩ := List.forall_mem_cons.mp h
    rw [List.mapM_cons, hx, ih hxs]
    rfl

theorem passWithin_eq {n : Nat} {e : Expr} (h : e.obstacle = none) (hn : e.size ≤ n) :
    passWithin A n e = some (simplifyWith A e) := by
  induction n generalizing e with
  | zero => exact absurd hn (Nat.not_le.mpr e.size_pos)
  | succ n ih =>
    have hpart : ∀ c ∈ e.children, passWithin A n c = some (simplifyWith A c) := by
      intro c hc
      have hlt := size_lt_of_mem_children hc
      exact ih (finished_of_mem_children h hc) (by omega)
    cases e with
    | const | var => rfl
    | neg a =>
      rw [passWithin, hpart a List.mem_cons_self]
      rfl
    | binary op a b =>
      rw [passWithin, hpart a (by simp [children]), hpart b (by simp [children])]
      rfl
    | powCall a b =>
      rw [passWithin, hpart a (by simp [children]), hpart b (by simp [children])]
      rfl
    | call f a =>
      rw [passWithin, hpart a List.mem_cons_self]
      refine callRule_eq A f fun g u hu => ?_
      obtain ⟨hfin, hlt, hfix⟩ := under_simplified_call (a := a) A h hu
      have hsize : a.size < (call f a).size := size_lt_of_mem_children List.mem_cons_self
      rw [ih hfin (by omega), hfix]
    | unknown name a rest =>
      have hrest : rest.mapM (passWithin A n) = some (rest.map (simplifyWith A)) :=
        mapM_eq_some_map fun c hc => hpart c (List.mem_cons_of_mem a hc)
      rw [passWithin, hpart a List.mem_cons_self, hrest, simplifyWith, simplifyAllWith_eq_map]
      rfl
    | blank | pair | datum | oddVar => cases h

end Depth

/-- A pass ends, and it goes no deeper than the tree has nodes, although it takes up again what its
rules uncover; there it changes nothing. The result has at most as many nodes as the tree, and fewer
unless it is the tree itself. -/
theorem pass_ends_and_shrinks {e : Expr} (h : e.WellFormed) :
    ∃ r, e.simplify = .ok r ∧ (∀ n, e.size ≤ n → passWithin .double n e = some r) ∧
      (∀ g u, r = call g u → ∀ n, e.size ≤ n → passWithin .double n u = some u) ∧
      r.size ≤ e.size ∧ (r ≠ e → r.size < e.size) := by
  have hfin := h.obstacle_eq_none
  refine ⟨_, simplify_of_obstacle_eq_none hfin, fun n hn => passWithin_eq .double hfin hn, ?_,
    size_simplifyWith_le .double e, fun hne => (size_simplifyWith .double e).resolve_left hne⟩
  intro g u hu n hn
  obtain ⟨hfin', hlt, hfix⟩ := under_simplified_call .double hfin hu
  rw [passWithin_eq .double hfin' (by omega), hfix]

/-- Two pairs of logarithm and exponential over zero minus a variable, which becomes its negation. -/
theorem pass_ends_and_shrinks_nested :
    let e := call .log (call .exp (call .exp (call .log (sub zero (var "x")))))
    e.WellFormed ∧ passWithin .double 7 e = some (neg (var "x")) ∧ (neg (var "x")).size < e.size := by
  intro e
  have hwf : e.WellFormed := ⟨trivial, trivial⟩
  obtain ⟨r, hr, hpass, -, -, hlt⟩ := pass_ends_and_shrinks hwf
  obtain rfl : neg (var "x") = r := Except.ok.inj hr
  exact ⟨hwf, hpass 7 (by decide), hlt nofun⟩

end Nabla.Expr
