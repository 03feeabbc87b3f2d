import Mathlib.Data.List.Induction
import Nabla.Proofs.Sequence
import Nabla.Session.Terms

/-!
# Tables under construction

A table is filled pair by pair, and a later pair takes the place of an earlier one with the same key.
What a session is given as a table of variables and trees is looked up by the names of the variables.
-/

namespace Nabla

namespace Table

variable {α : Type}

theorem mem_of_find? {t : Table α} {name : String} {a : α} (h : t.find? name = some a) :
    (name, a) ∈ t := by
  induction t with
  | nil => cases h
  | cons p rest ih =>
    obtain ⟨key, b⟩ := p
    rw [find?] at h
    split_ifs at h with hk
    · cases h
      rw [hk]
      exact List.mem_cons_self
    · exact List.mem_cons_of_mem _ (ih h)

theorem ofPairs_append (pairs : List (String × α)) (p : String × α) :
    ofPairs (pairs ++ [p]) = (ofPairs pairs).set p.1 p.2 := by
  rw [ofPairs, List.foldl_append]
  rfl

theorem mem_of_find?_ofPairs {pairs : List (String × α)} {name : String} {a : α}
    (h : (ofPairs pairs).find? name = some a) : (name, a) ∈ pairs := by
  induction pairs using List.reverseRecOn with
  | nil => cases h
  | append_singleton pairs p ih =>
    obtain ⟨key, b⟩ := p
    rw [ofPairs_append] at h
    by_cases hk : name = key
    · subst hk
      rw [find?_set_self] at h
      cases h
      simp
    · rw [find?_set_of_ne _ _ hk] at h
      exact List.mem_append_left _ (ih h)

theorem find?_ofPairs_ne_none {pairs : List (String × α)} {name : String} {a : α}
    (h : (name, a) ∈ pairs) : (ofPairs pairs).find? name ≠ none := by
  induction pairs using List.reverseRecOn with
  | nil => exact nomatch h
  | append_singleton pairs p ih =>
    obtain ⟨key, b⟩ := p
    rw [ofPairs_append]
    by_cases hk : name = key
    · subst hk
      simp
    · rw [find?_set_of_ne _ _ hk]
      refine ih ?_
      simpa [hk] using h

end Table

namespace Value

/-! ## Keys that name variables -/

theorem target?_eq_some_iff {v : Value} {x : String} :
    v.target? = some x ↔ v = plain (.str x) ∨ v = expr (.var x) := by
  constructor
  · unfold target?
    intro h
    split at h
    · cases h
      exact Or.inl rfl
    · cases h
      exact Or.inr rfl
    · cases h
  · rintro (rfl | rfl) <;> rfl

theorem target?_of_same {v w : Value} {x : String} (h : v.same w = true) (hw : w.target? = some x) :
    v.target? = some x := by
  rcases target?_eq_some_iff.mp hw with rfl | rfl
  · cases v with
    | plain j =>
      cases j with
      | str s =>
        have hs : s = x := by simpa [same, Json.same] using h
        rw [hs]
        rfl
      | _ => simp [same, Json.same, Json.sameNumber, Json.comparable?] at h
    | _ => simp [same] at h
  · cases v with
    | expr e =>
      cases e with
      | var y =>
        have hy : y = x := by
          have h : (y == x) = true := h
          simpa using h
        rw [hy]
        rfl
      | _ => exact nomatch h
    | _ => simp [same] at h

theorem checkKey_of_target? {v : Value} {x : String} (h : v.target? = some x) :
    v.checkKey = .ok () := by
  rcases target?_eq_some_iff.mp h with rfl | rfl
  · simp [checkKey]
  · simp [checkKey, Expr.data, checkData]

variable {α : Type}

theorem mem_setKey {t : List (Value × α)} {key : Value} {a : α} {q : Value × α}
    (h : q ∈ setKey t key a) : q ∈ t ∨ q.2 = a ∧ (q.1 = key ∨ q.1.same key = true) := by
  induction t with
  | nil =>
    rw [List.mem_singleton.mp h]
    exact Or.inr ⟨rfl, Or.inl rfl⟩
  | cons p rest ih =>
    obtain ⟨k, b⟩ := p
    rw [setKey] at h
    split_ifs at h with hk
    · rcases List.mem_cons.mp h with rfl | h
      · exact Or.inr ⟨rfl, Or.inr hk⟩
      · exact Or.inl (List.mem_cons_of_mem _ h)
    · rcases List.mem_cons.mp h with rfl | h
      · exact Or.inl List.mem_cons_self
      · exact (ih h).imp_left (List.mem_cons_of_mem _)

theorem exists_mem_setKey_self (t : List (Value × α)) (key : Value) (a : α) :
    ∃ q ∈ setKey t key a, q.1 = key ∨ q.1.same key = true := by
  induction t with
  | nil => exact ⟨(key, a), List.mem_cons_self, Or.inl rfl⟩
  | cons p rest ih =>
    obtain ⟨k, b⟩ := p
    rw [setKey]
    split_ifs with hk
    · exact ⟨(k, a), List.mem_cons_self, Or.inr hk⟩
    · obtain ⟨q, hq, hsame⟩ := ih
      exact ⟨q, List.mem_cons_of_mem _ hq, hsame⟩

theorem exists_mem_setKey {t : List (Value × α)} {q : Value × α} (h : q ∈ t) (key : Value) (a : α) :
    ∃ b, (q.1, b) ∈ setKey t key a := by
  induction t with
  | nil => exact nomatch h
  | cons p rest ih =>
    obtain ⟨k, b⟩ := p
    rw [setKey]
    split_ifs with hk
    · rcases List.mem_cons.mp h with rfl | h
      · exact ⟨a, List.mem_cons_self⟩
      · exact ⟨q.2, List.mem_cons_of_mem _ h⟩
    · rcases List.mem_cons.mp h with rfl | h
      · exact ⟨b, List.mem_cons_self⟩
      · obtain ⟨b', hb'⟩ := ih h
        exact ⟨b', List.mem_cons_of_mem _ hb'⟩

/-- The table `given` maps the variables that the keys of `pairs` name, each as one of the pairs
does. -/
structure MapsAs (pairs given : List (Value × α)) : Prop where
  from_pair : ∀ q ∈ given, ∃ p ∈ pairs, q.1.target? = p.1.target? ∧ q.2 = p.2
  all_names : ∀ p ∈ pairs, ∃ q ∈ given, q.1.target? = p.1.target?

theorem target?_of_key {v w : Value} {x : String} (h : v = w ∨ v.same w = true)
    (hw : w.target? = some x) : v.target? = w.target? := by
  rcases h with rfl | h
  · rfl
  · rw [target?_of_same h hw, hw]

theorem mapsAs_foldl {pairs : List (Value × α)} (h : ∀ p ∈ pairs, ∃ x, p.1.target? = some x) :
    MapsAs pairs (pairs.foldl (fun t p => setKey t p.1 p.2) []) := by
  induction pairs using List.reverseRecOn with
  | nil => exact ⟨fun _ h => (nomatch h), fun _ h => (nomatch h)⟩
  | append_singleton pairs p ih =>
    have hpairs : ∀ p' ∈ pairs, ∃ x, p'.1.target? = some x :=
      fun p' hp' => h p' (List.mem_append_left _ hp')
    obtain ⟨hfrom, hall⟩ := ih hpairs
    obtain ⟨x, hx⟩ := h p (by simp)
    rw [List.foldl_append]
    constructor
    · intro q hq
      rcases mem_setKey hq with hq | ⟨hval, hkey⟩
      · obtain ⟨p', hp', hq⟩ := hfrom q hq
        exact ⟨p', List.mem_append_left _ hp', hq⟩
      · exact ⟨p, by simp, target?_of_key hkey hx, hval⟩
    · intro p' hp'
      rcases List.mem_append.mp hp' with hp' | hp'
      · obtain ⟨q, hq, htarget⟩ := hall p' hp'
        obtain ⟨b, hb⟩ := exists_mem_setKey hq p.1 p.2
        exact ⟨(q.1, b), hb, htarget⟩
      · rw [List.mem_singleton.mp hp']
        obtain ⟨q, hq, hkey⟩ := exists_mem_setKey_self
          (pairs.foldl (fun t p => setKey t p.1 p.2) []) p.1 p.2
        exact ⟨q, hq, target?_of_key hkey hx⟩

theorem forIn_checkKey {pairs : List (Value × α)} (h : ∀ p ∈ pairs, p.1.checkKey = .ok ()) :
    (forIn pairs PUnit.unit fun p _ => do
      checkKey p.1
      pure (ForInStep.yield PUnit.unit) : Except Error PUnit) = .ok PUnit.unit := by
  induction pairs with
  | nil => rfl
  | cons p pairs ih =>
    obtain ⟨hp, hpairs⟩ := List.forall_mem_cons.mp h
    rw [List.forIn_cons, hp]
    exact ih hpairs

theorem exists_entries {pairs : List (Value × α)} (h : ∀ p ∈ pairs, ∃ x, p.1.target? = some x) :
    ∃ given, entries pairs = .ok given ∧ MapsAs pairs given := by
  refine ⟨_, ?_, mapsAs_foldl h⟩
  have hkeys : ∀ p ∈ pairs, p.1.checkKey = .ok () := by
    intro p hp
    obtain ⟨x, hx⟩ := h p hp
    exact checkKey_of_target? hx
  unfold entries
  rw [forIn_checkKey hkeys]
  rfl

/-- Among the pairs there is one that replaces the variable `x` by the tree `t`. -/
def Replaces (pairs : List (Value × Value)) (x : String) (t : Expr) : Prop :=
  ∃ p ∈ pairs, p.1.target? = some x ∧ p.2.toExpr = .ok t

end Value

namespace Session

theorem run_nameOf {v : Value} {x : String} (h : v.target? = some x) (s : Session) :
    (nameOf v).run.run s = (.ok x, s) := by
  rcases Value.target?_eq_some_iff.mp h with rfl | rfl <;> rfl

/-- A name and a tree, as a substitution reads them off a key and a value. -/
def readPair (p : Value × Value) : SessionM (String × Expr) := do
  let name ← nameOf p.1
  return (name, ← p.2.toExpr)

theorem run_readPair {p : Value × Value} {x : String} {t : Expr} (hx : p.1.target? = some x)
    (ht : p.2.toExpr = .ok t) (s : Session) : (readPair p).run.run s = (.ok (x, t), s) := by
  rw [readPair, run_bind_of_ok (run_nameOf hx s), ht]
  rfl

/-- The name and the tree that a substitution reads off a key and a value. -/
def Reads (p : Value × Value) (r : String × Expr) : Prop :=
  p.1.target? = some r.1 ∧ p.2.toExpr = .ok r.2

theorem exists_named {pairs given : List (Value × Value)}
    (hgiven : Value.entries pairs = .ok given) (h : ∀ q ∈ given, ∃ r, Reads q r) (s : Session) :
    ∃ named, List.Forall₂ Reads given named ∧ ∀ e,
      (substitute (.expr e) pairs).run.run s = (e.substitute (Table.ofPairs named).find?, s) := by
  have hread : ∀ q ∈ given, ∃ r, (readPair q).run.run s = (.ok r, s) ∧ Reads q r := by
    intro q hq
    obtain ⟨⟨x, t⟩, hx, ht⟩ := h q hq
    exact ⟨(x, t), run_readPair hx ht s, hx, ht⟩
  obtain ⟨named, hnamed, hforall⟩ := exists_run_mapM hread
  refine ⟨named, hforall, ?_⟩
  intro e
  unfold substitute
  rw [hgiven]
  show (given.mapM readPair >>= fun named =>
    liftM (e.substitute (Table.ofPairs named).find?)).run.run s = _
  rw [run_bind_of_ok hnamed]
  rfl

theorem run_substitute_of_entries {pairs given : List (Value × Value)}
    (hgiven : Value.entries pairs = .ok given) (h : ∀ q ∈ given, ∃ r, Reads q r) (e : Expr)
    (s : Session) :
    ∃ named, List.Forall₂ Reads given named ∧
      (substitute (.expr e) pairs).run.run s = (e.substitute (Table.ofPairs named).find?, s) := by
  obtain ⟨named, hforall, hrun⟩ := exists_named hgiven h s
  exact ⟨named, hforall, hrun e⟩

theorem exists_reads {pairs given : List (Value × Value)}
    (h : ∀ p ∈ pairs, ∃ x t, p.1.target? = some x ∧ p.2.toExpr = .ok t)
    (hfrom : Value.MapsAs pairs given) : ∀ q ∈ given, ∃ r, Reads q r := by
  intro q hq
  obtain ⟨p, hp, hkey, hval⟩ := hfrom.from_pair q hq
  obtain ⟨x, t, hx, ht⟩ := h p hp
  rw [← hkey] at hx
  rw [← hval] at ht
  exact ⟨(x, t), hx, ht⟩

/-- The map of a substitution is one that the pairs make up. -/
theorem exists_substitution {pairs : List (Value × Value)}
    (h : ∀ p ∈ pairs, ∃ x t, p.1.target? = some x ∧ p.2.toExpr = .ok t) (s : Session) :
    ∃ σ, (∀ e, (substitute (.expr e) pairs).run.run s = (e.substitute σ, s)) ∧
      (∀ x t, σ x = some t → Value.Replaces pairs x t) ∧
      ∀ x t, Value.Replaces pairs x t → σ x ≠ none := by
  have hkeys : ∀ p ∈ pairs, ∃ x, p.1.target? = some x := by
    intro p hp
    obtain ⟨x, t, hx, -⟩ := h p hp
    exact ⟨x, hx⟩
  obtain ⟨given, hgiven, hmaps⟩ := Value.exists_entries hkeys
  obtain ⟨named, hforall, hrun⟩ := exists_named hgiven (exists_reads h hmaps) s
  refine ⟨(Table.ofPairs named).find?, hrun, ?_, ?_⟩
  · intro x t hx
    obtain ⟨q, hq, hkey, hval⟩ := exists_left_of_mem hforall (Table.mem_of_find?_ofPairs hx)
    obtain ⟨p, hp, hkey', hval'⟩ := hmaps.from_pair q hq
    exact ⟨p, hp, hkey' ▸ hkey, hval' ▸ hval⟩
  · rintro x t ⟨p, hp, hx, -⟩
    obtain ⟨q, hq, hkey⟩ := hmaps.all_names p hp
    obtain ⟨⟨x', t'⟩, hr, hkey', -⟩ := exists_right_of_mem hforall hq
    obtain rfl : x = x' := Option.some.inj (hx.symm.trans (hkey.symm.trans hkey'))
    exact Table.find?_ofPairs_ne_none hr

end Session

end Nabla
