import Mathlib.Data.List.Forall2

/-!
# Lists of steps that may fail

A step for each member of a list, one after the other: all of them succeed, or the first failure
counts.
-/

namespace Nabla

variable {ε α β : Type}

theorem bind_eq_ok_iff {m : Except ε α} {f : α → Except ε β} {b : β} :
    m >>= f = .ok b ↔ ∃ a, m = .ok a ∧ f a = .ok b := by
  cases m with
  | error err => exact ⟨fun h => (nomatch h), fun ⟨_, h, _⟩ => (nomatch h)⟩
  | ok a =>
    constructor
    · intro h
      exact ⟨a, rfl, h⟩
    · rintro ⟨a', h, hb⟩
      cases h
      exact hb

theorem map_eq_ok_iff {m : Except ε α} {f : α → β} {b : β} :
    m.map f = .ok b ↔ ∃ a, m = .ok a ∧ f a = b := by
  cases m with
  | error err => exact ⟨fun h => (nomatch h), fun ⟨_, h, _⟩ => (nomatch h)⟩
  | ok a =>
    constructor
    · intro h
      exact ⟨a, rfl, Except.ok.inj h⟩
    · rintro ⟨a', h, rfl⟩
      cases h
      rfl

theorem map_eq_error_iff {m : Except ε α} {f : α → β} {err : ε} :
    m.map f = .error err ↔ m = .error err := by
  cases m with
  | error err' =>
    show Except.error err' = Except.error err ↔ _
    rw [Except.error.injEq, Except.error.injEq]
  | ok a => exact ⟨fun h => (nomatch h), fun h => (nomatch h)⟩

theorem mapM_eq_ok_iff {f : α → Except ε β} {xs : List α} {ys : List β} :
    xs.mapM f = .ok ys ↔ List.Forall₂ (fun x y => f x = .ok y) xs ys := by
  induction xs generalizing ys with
  | nil =>
    rw [List.mapM_nil, List.forall₂_nil_left_iff]
    exact ⟨fun h => by cases h; rfl, fun h => by rw [h]; rfl⟩
  | cons x xs ih =>
    rw [List.mapM_cons, bind_eq_ok_iff, List.forall₂_cons_left_iff]
    constructor
    · rintro ⟨y, hy, h⟩
      obtain ⟨zs, hzs, h⟩ := bind_eq_ok_iff.mp h
      cases h
      exact ⟨y, zs, hy, ih.mp hzs, rfl⟩
    · rintro ⟨y, zs, hy, hzs, rfl⟩
      refine ⟨y, hy, ?_⟩
      rw [ih.mpr hzs]
      rfl

theorem mapM_eq_error_iff {f : α → Except ε β} {xs : List α} {err : ε} :
    xs.mapM f = .error err ↔
      ∃ before x after, xs = before ++ x :: after ∧ (∀ y ∈ before, ∃ b, f y = .ok b) ∧
        f x = .error err := by
  constructor
  · intro h
    induction xs with
    | nil => cases h
    | cons x xs ih =>
      rw [List.mapM_cons] at h
      cases hx : f x with
      | error err' =>
        rw [hx] at h
        cases h
        exact ⟨[], x, xs, rfl, fun _ hy => (nomatch hy), hx⟩
      | ok b =>
        rw [hx] at h
        cases hxs : xs.mapM f with
        | ok ys =>
          rw [hxs] at h
          cases h
        | error err' =>
          rw [hxs] at h
          cases h
          obtain ⟨before, y, after, rfl, hb, hy⟩ := ih hxs
          exact ⟨x :: before, y, after, rfl, List.forall_mem_cons.mpr ⟨⟨b, hx⟩, hb⟩, hy⟩
  · rintro ⟨before, x, after, rfl, hb, hx⟩
    induction before with
    | nil =>
      rw [List.nil_append, List.mapM_cons, hx]
      rfl
    | cons y before ih =>
      obtain ⟨⟨b, hy⟩, hb⟩ := List.forall_mem_cons.mp hb
      rw [List.cons_append, List.mapM_cons, hy, ih hb]
      rfl

theorem exists_mapM {f : α → Except ε β} {xs : List α} (h : ∀ x ∈ xs, ∃ y, f x = .ok y) :
    ∃ ys, xs.mapM f = .ok ys := by
  cases hxs : xs.mapM f with
  | ok ys => exact ⟨ys, rfl⟩
  | error err =>
    obtain ⟨before, x, after, rfl, -, hx⟩ := mapM_eq_error_iff.mp hxs
    obtain ⟨y, hy⟩ := h x (by simp)
    rw [hx] at hy
    cases hy

theorem exists_forall₂ {R : α → β → Prop} {xs : List α} (h : ∀ x ∈ xs, ∃ y, R x y) :
    ∃ ys, List.Forall₂ R xs ys := by
  induction xs with
  | nil => exact ⟨[], .nil⟩
  | cons x xs ih =>
    obtain ⟨⟨y, hy⟩, hxs⟩ := List.forall_mem_cons.mp h
    obtain ⟨ys, hys⟩ := ih hxs
    exact ⟨y :: ys, .cons hy hys⟩

theorem exists_left_of_mem {R : α → β → Prop} {xs : List α} {ys : List β}
    (h : List.Forall₂ R xs ys) {y : β} (hy : y ∈ ys) : ∃ x ∈ xs, R x y := by
  induction h with
  | nil => exact nomatch hy
  | @cons x y' xs ys hx _ ih =>
    rcases List.mem_cons.mp hy with rfl | hy
    · exact ⟨x, List.mem_cons_self, hx⟩
    · obtain ⟨x', hx', hr⟩ := ih hy
      exact ⟨x', List.mem_cons_of_mem x hx', hr⟩

theorem exists_right_of_mem {R : α → β → Prop} {xs : List α} {ys : List β}
    (h : List.Forall₂ R xs ys) {x : α} (hx : x ∈ xs) : ∃ y ∈ ys, R x y := by
  obtain ⟨y, hy, hr⟩ := exists_left_of_mem h.flip hx
  exact ⟨y, hy, hr⟩

theorem getElem?_mapM {f : α → Except ε β} {xs : List α} {ys : List β} (h : xs.mapM f = .ok ys)
    {k : Nat} {y : β} : ys[k]? = some y ↔ ∃ x, xs[k]? = some x ∧ f x = .ok y := by
  have hf := mapM_eq_ok_iff.mp h
  clear h
  induction hf generalizing k with
  | nil => simp
  | @cons x z xs ys hx _ ih =>
    cases k with
    | zero =>
      constructor
      · intro hy
        cases hy
        exact ⟨x, rfl, hx⟩
      · rintro ⟨x', hx', hy⟩
        cases hx'
        rw [hx] at hy
        cases hy
        rfl
    | succ k =>
      rw [List.getElem?_cons_succ, List.getElem?_cons_succ]
      exact ih

theorem exists_getElem?_of_mapM {f : α → Except ε β} {xs : List α} {ys : List β}
    (h : xs.mapM f = .ok ys) {k : Nat} {x : α} (hx : xs[k]? = some x) :
    ∃ y, ys[k]? = some y ∧ f x = .ok y := by
  obtain ⟨hk, -⟩ := List.getElem?_eq_some_iff.mp hx
  rw [(mapM_eq_ok_iff.mp h).length_eq] at hk
  have hy := List.getElem?_eq_getElem hk
  obtain ⟨x', hx', hfx⟩ := (getElem?_mapM h).mp hy
  obtain rfl : x = x' := Option.some.inj (hx.symm.trans hx')
  exact ⟨_, hy, hfx⟩

/-! ## Steps with a state -/

section State

variable {σ : Type} {s s' : σ}

theorem run_bind_of_ok {m : ExceptT ε (StateM σ) α} {f : α → ExceptT ε (StateM σ) β} {a : α}
    (h : m.run.run s = (.ok a, s')) : (m >>= f).run.run s = (f a).run.run s' := by
  rw [ExceptT.run_bind, StateT.run_bind, h]
  rfl

theorem run_bind_of_keeps {m : ExceptT ε (StateM σ) α} {f : α → ExceptT ε (StateM σ) β}
    {outcome : Except ε α} : m.run.run s = (outcome, s) →
    (m >>= f).run.run s = match outcome with
      | .ok a => (f a).run.run s
      | .error err => (.error err, s) := by
  intro h
  rw [ExceptT.run_bind, StateT.run_bind, h]
  cases outcome <;> rfl

theorem run_liftM (m : Except ε α) (s : σ) :
    (liftM m : ExceptT ε (StateM σ) α).run.run s = (m, s) := by
  cases m <;> rfl

theorem run_mapM_of_keeps {f : α → ExceptT ε (StateM σ) β} {g : α → Except ε β}
    (h : ∀ x, (f x).run.run s = (g x, s)) (xs : List α) :
    (xs.mapM f).run.run s = (xs.mapM g, s) := by
  induction xs with
  | nil => rfl
  | cons x xs ih =>
    rw [List.mapM_cons, List.mapM_cons, run_bind_of_keeps (h x)]
    cases g x with
    | error err => rfl
    | ok y =>
      show (xs.mapM f >>= fun ys => pure (y :: ys)).run.run s = _
      rw [run_bind_of_keeps ih]
      cases xs.mapM g <;> rfl

theorem exists_run_mapM {f : α → ExceptT ε (StateM σ) β} {R : α → β → Prop} {xs : List α}
    (h : ∀ x ∈ xs, ∃ y, (f x).run.run s = (.ok y, s) ∧ R x y) :
    ∃ ys, (xs.mapM f).run.run s = (.ok ys, s) ∧ List.Forall₂ R xs ys := by
  induction xs with
  | nil => exact ⟨[], rfl, .nil⟩
  | cons x xs ih =>
    obtain ⟨⟨y, hy, hr⟩, hxs⟩ := List.forall_mem_cons.mp h
    obtain ⟨ys, hys, hrs⟩ := ih hxs
    refine ⟨y :: ys, ?_, .cons hr hrs⟩
    rw [List.mapM_cons, run_bind_of_ok hy, run_bind_of_ok hys]
    rfl

end State

end Nabla
