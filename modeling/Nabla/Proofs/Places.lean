import Mathlib.Tactic.Common
import Nabla.Program.Code
import Nabla.Table

/-!
# The places of parameters

A parameter may be listed more than once. Generated code takes the last place of a name, and a table
that is filled in the order of the list keeps the last value of a name, so the two agree as long as
there is a value for that place.
-/

namespace Nabla

/-- The last place where a name stands in a list. -/
def LastAt (ps : List String) (name : String) (i : Nat) : Prop :=
  ps[i]? = some name ∧ ∀ j, i < j → ps[j]? ≠ some name

theorem LastAt.lt {ps : List String} {name : String} {i : Nat} (h : LastAt ps name i) :
    i < ps.length := by
  by_contra hi
  rw [LastAt, List.getElem?_eq_none (by omega)] at h
  exact nomatch h.1

theorem lastAt_cons_succ {p name : String} {ps : List String} {i : Nat} :
    LastAt (p :: ps) name (i + 1) ↔ LastAt ps name i := by
  unfold LastAt
  rw [List.getElem?_cons_succ]
  refine and_congr_right fun _ => ⟨fun h j hj => ?_, fun h j hj => ?_⟩
  · exact h (j + 1) (by omega)
  · obtain ⟨j, rfl⟩ : ∃ k, j = k + 1 := ⟨j - 1, by omega⟩
    exact h j (by omega)

theorem lastAt_cons_zero {p name : String} {ps : List String} :
    LastAt (p :: ps) name 0 ↔ p = name ∧ name ∉ ps := by
  unfold LastAt
  rw [List.getElem?_cons_zero, Option.some.injEq]
  refine and_congr_right fun _ => ⟨fun h hmem => ?_, fun h j hj hget => h ?_⟩
  · obtain ⟨j, hj⟩ := List.mem_iff_getElem?.mp hmem
    exact h (j + 1) (by omega) hj
  · obtain ⟨j, rfl⟩ : ∃ k, j = k + 1 := ⟨j - 1, by omega⟩
    exact List.mem_iff_getElem?.mpr ⟨j, hget⟩

theorem lastIndex?_eq_none_iff {name : String} {ps : List String} :
    lastIndex? name ps = none ↔ name ∉ ps := by
  induction ps with
  | nil => simp [lastIndex?]
  | cons p ps ih =>
    unfold lastIndex?
    cases h : lastIndex? name ps with
    | some i =>
      have hmem : name ∈ ps := by
        by_contra hn
        rw [ih.mpr hn] at h
        cases h
      simp [hmem]
    | none =>
      have hmem : name ∉ ps := ih.mp h
      by_cases hp : p = name
      · simp [hp]
      · simp [hp, Ne.symm hp, hmem]

theorem lastIndex?_eq_some_iff {name : String} {ps : List String} {i : Nat} :
    lastIndex? name ps = some i ↔ LastAt ps name i := by
  induction ps generalizing i with
  | nil => simp [lastIndex?, LastAt]
  | cons p ps ih =>
    unfold lastIndex?
    cases h : lastIndex? name ps with
    | some j =>
      have hj : LastAt ps name j := ih.mp h
      have hmem : name ∈ ps := List.mem_iff_getElem?.mpr ⟨j, hj.1⟩
      cases i with
      | zero => simp [lastAt_cons_zero, hmem]
      | succ i => rw [lastAt_cons_succ, ← ih, h]; simp
    | none =>
      have hmem : name ∉ ps := lastIndex?_eq_none_iff.mp h
      cases i with
      | zero => simp [lastAt_cons_zero, hmem]
      | succ i =>
        rw [lastAt_cons_succ, ← ih, h]
        split_ifs <;> simp

/-! ## Tables that are filled in order -/

namespace Table

variable {α : Type u}

theorem find?_foldl_of_not_mem {name : String} {ps : List String} (h : name ∉ ps) (t : Table α)
    (values : List α) :
    ((ps.zip values).foldl (fun t p => t.set p.1 p.2) t).find? name = t.find? name := by
  induction ps generalizing t values with
  | nil => rfl
  | cons p ps ih =>
    rw [List.mem_cons, not_or] at h
    obtain ⟨hp, hps⟩ := h
    cases values with
    | nil => rfl
    | cons v values =>
      rw [List.zip_cons_cons, List.foldl_cons, ih hps, find?_set_of_ne t v hp]

theorem find?_foldl_of_lastAt {name : String} {ps : List String} {i : Nat} (h : LastAt ps name i)
    (t : Table α) {values : List α} (hi : i < values.length) :
    ((ps.zip values).foldl (fun t p => t.set p.1 p.2) t).find? name = values[i]? := by
  induction ps generalizing t values i with
  | nil => exact nomatch h.1
  | cons p ps ih =>
    cases values with
    | nil => exact absurd hi (Nat.not_lt_zero i)
    | cons v values =>
      rw [List.zip_cons_cons, List.foldl_cons]
      cases i with
      | zero =>
        obtain ⟨rfl, hmem⟩ := lastAt_cons_zero.mp h
        rw [find?_foldl_of_not_mem hmem, find?_set_self]
        rfl
      | succ i => exact ih (lastAt_cons_succ.mp h) _ (Nat.lt_of_succ_lt_succ hi)

theorem find?_ofPairs_of_lastAt {name : String} {ps : List String} {i : Nat} (h : LastAt ps name i)
    {values : List α} (hi : i < values.length) :
    (ofPairs (ps.zip values)).find? name = values[i]? :=
  find?_foldl_of_lastAt h [] hi

theorem exists_find?_ofPairs {name : String} {ps : List String} (h : name ∈ ps) {values : List α}
    (hlen : values.length = ps.length) : ∃ a, (ofPairs (ps.zip values)).find? name = some a := by
  cases hi : lastIndex? name ps with
  | none => exact absurd h (lastIndex?_eq_none_iff.mp hi)
  | some i =>
    have hlast := lastIndex?_eq_some_iff.mp hi
    have hlt : i < values.length := hlen ▸ hlast.lt
    exact ⟨values[i], by rw [find?_ofPairs_of_lastAt hlast hlt, List.getElem?_eq_getElem hlt]⟩

theorem find?_ofPairs_of_not_mem {name : String} {ps : List String} (h : name ∉ ps)
    (values : List α) : (ofPairs (ps.zip values)).find? name = none :=
  find?_foldl_of_not_mem h [] values

end Table

end Nabla
