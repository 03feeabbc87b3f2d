import Mathlib.Data.List.Forall2
import Mathlib.Data.List.GetD
import Mathlib.Data.Set.Insert
import Mathlib.Order.MinMax
import Nabla.NdArray

/-!
# Broadcasting

Shapes are aligned at their last dimension, so a shape is described by its size in each dimension
counted from there, where a missing dimension has size one; a position is described in the same way.
Broadcasting two shapes is then decided dimension by dimension, and shapes that were broadcast pairwise,
in any order, have the shape that all of them are broadcast to together.
-/

namespace Nabla.NdArray

/-! ## Dimensions from the last one on -/

/-- The size in dimension `k` from the last one on. -/
def extent (s : List Nat) (k : Nat) : Nat := s.reverse.getD k 1

/-- The index in dimension `k` from the last one on. -/
def index (i : List Nat) (k : Nat) : Nat := i.reverse.getD k 0

theorem eq_of_reverse_getD {s t : List Nat} {d : Nat} (hlen : s.length = t.length)
    (h : ∀ k, s.reverse.getD k d = t.reverse.getD k d) : s = t := by
  rw [← List.reverse_inj]
  refine List.ext_getElem (by simp [hlen]) fun k hs ht => ?_
  rw [← List.getD_eq_getElem _ d hs, ← List.getD_eq_getElem _ d ht, h]

/-! ## Two shapes -/

theorem joinSize?_eq_some_iff {m n k : Nat} :
    joinSize? m n = some k ↔ m = 1 ∧ n = k ∨ n = 1 ∧ m = k ∨ m = n ∧ m = k := by
  unfold joinSize?
  split_ifs <;> simp <;> omega

theorem joinSize?_eq_none_iff {m n : Nat} : joinSize? m n = none ↔ m ≠ 1 ∧ n ≠ 1 ∧ m ≠ n := by
  unfold joinSize?
  split_ifs <;> simp <;> omega

theorem joinReversed?_eq_some {ms ns us : List Nat} (h : joinReversed? ms ns = some us) :
    us.length = max ms.length ns.length ∧
      ∀ k, joinSize? (ms.getD k 1) (ns.getD k 1) = some (us.getD k 1) := by
  induction ms, ns using joinReversed?.induct generalizing us with
  | case1 ns =>
    obtain rfl : ns = us := by simpa [joinReversed?] using h
    simp [joinSize?_eq_some_iff]
  | case2 ms hms =>
    obtain rfl : ms = us := by cases ms <;> simpa [joinReversed?] using h
    simp [joinSize?_eq_some_iff]
  | case3 m ms n ns ih =>
    simp only [joinReversed?, Option.bind_eq_bind, Option.bind_eq_some_iff, Option.pure_def,
      Option.some_inj] at h
    obtain ⟨u, hu, us', hus, rfl⟩ := h
    obtain ⟨hlen, hsizes⟩ := ih hus
    refine ⟨by simp [hlen], fun k => ?_⟩
    cases k with
    | zero => exact hu
    | succ k => exact hsizes k

theorem joinReversed?_eq_none {ms ns : List Nat} (h : joinReversed? ms ns = none) :
    ∃ k, joinSize? (ms.getD k 1) (ns.getD k 1) = none := by
  induction ms, ns using joinReversed?.induct with
  | case1 ns => simp [joinReversed?] at h
  | case2 ms hms => cases ms <;> simp [joinReversed?] at h
  | case3 m ms n ns ih =>
    cases hu : joinSize? m n with
    | none => exact ⟨0, hu⟩
    | some u =>
      cases hus : joinReversed? ms ns with
      | none =>
        obtain ⟨k, hk⟩ := ih hus
        exact ⟨k + 1, hk⟩
      | some us => simp [joinReversed?, hu, hus] at h

theorem joinShape?_eq_some {s t u : List Nat} (h : joinShape? s t = some u) :
    u.length = max s.length t.length ∧
      ∀ k, joinSize? (extent s k) (extent t k) = some (extent u k) := by
  obtain ⟨us, hus, rfl⟩ := Option.map_eq_some_iff.mp h
  simpa [extent] using joinReversed?_eq_some hus

theorem joinShape?_eq_none {s t : List Nat} (h : joinShape? s t = none) :
    ∃ k, joinSize? (extent s k) (extent t k) = none :=
  joinReversed?_eq_none (Option.map_eq_none_iff.mp h)

/-! ## Any number of shapes -/

/-- In each dimension all sizes other than one coincide. -/
def Compatible (shapes : Set (List Nat)) : Prop :=
  ∀ s ∈ shapes, ∀ t ∈ shapes, ∀ k, extent s k ≠ 1 → extent t k ≠ 1 → extent s k = extent t k

/-- The shape that has as many dimensions as the longest of the shapes needs, and in each dimension the
size other than one that one of them has there. -/
structure IsJoint (shapes : Set (List Nat)) (u : List Nat) : Prop where
  rank : ∀ n, u.length ≤ n ↔ ∀ s ∈ shapes, s.length ≤ n
  size : ∀ k n, n ≠ 1 → (extent u k = n ↔ ∃ s ∈ shapes, extent s k = n)

section Joint

variable {shapes shapes' : Set (List Nat)} {s t u : List Nat}

theorem IsJoint.compatible (h : IsJoint shapes u) : Compatible shapes := by
  intro s hs t ht k hsk htk
  have hs := (h.size k _ hsk).mpr ⟨s, hs, rfl⟩
  have ht := (h.size k _ htk).mpr ⟨t, ht, rfl⟩
  exact hs.symm.trans ht

theorem isJoint_empty : IsJoint ∅ [] := by
  constructor <;> simp [extent, eq_comm]

theorem isJoint_singleton (s : List Nat) : IsJoint {s} s := by
  constructor <;> simp

theorem IsJoint.unique (h : IsJoint shapes s) (h' : IsJoint shapes t) : s = t := by
  refine eq_of_reverse_getD (d := 1) ?_ fun k => ?_
  · have hs := (h'.rank s.length).mpr ((h.rank s.length).mp le_rfl)
    have ht := (h.rank t.length).mpr ((h'.rank t.length).mp le_rfl)
    exact le_antisymm ht hs
  · show extent s k = extent t k
    by_cases hs : extent s k = 1
    · by_contra hne
      have ht : extent t k ≠ 1 := fun ht => hne (hs.trans ht.symm)
      exact hne ((h.size k _ ht).mpr ((h'.size k _ ht).mp rfl))
    · exact ((h'.size k _ hs).mpr ((h.size k _ hs).mp rfl)).symm

theorem IsJoint.union (hs : IsJoint shapes s) (ht : IsJoint shapes' t) (h : joinShape? s t = some u) :
    IsJoint (shapes ∪ shapes') u := by
  obtain ⟨hlen, hsizes⟩ := joinShape?_eq_some h
  refine ⟨fun n => ?_, fun k n hn => ?_⟩
  · rw [hlen, max_le_iff, hs.rank, ht.rank]
    simp only [Set.mem_union, or_imp, forall_and]
  · have hjoin : extent u k = n ↔ extent s k = n ∨ extent t k = n := by
      have hk := joinSize?_eq_some_iff.mp (hsizes k)
      omega
    rw [hjoin, hs.size k n hn, ht.size k n hn]
    simp only [Set.mem_union, or_and_right, exists_or]

theorem IsJoint.not_compatible_union (hs : IsJoint shapes s) (ht : IsJoint shapes' t)
    (h : joinShape? s t = none) : ¬ Compatible (shapes ∪ shapes') := by
  obtain ⟨k, hk⟩ := joinShape?_eq_none h
  obtain ⟨hsk, htk, hne⟩ := joinSize?_eq_none_iff.mp hk
  obtain ⟨s', hs', hs'k⟩ := (hs.size k _ hsk).mp rfl
  obtain ⟨t', ht', ht'k⟩ := (ht.size k _ htk).mp rfl
  intro hcompat
  have heq := hcompat s' (.inl hs') t' (.inr ht') k (hs'k ▸ hsk) (ht'k ▸ htk)
  exact hne (hs'k.symm.trans (heq.trans ht'k))

theorem Compatible.mono (h : Compatible shapes') (hsub : shapes ⊆ shapes') : Compatible shapes :=
  fun s hs t ht => h s (hsub hs) t (hsub ht)

end Joint

/-! ## Positions -/

/-- The shape `s` is repeated to the shape `u`. -/
structure Spreads (s u : List Nat) : Prop where
  rank : s.length ≤ u.length
  size : ∀ k, extent s k ≠ 1 → extent u k = extent s k

theorem IsJoint.spreads {shapes : Set (List Nat)} {s u : List Nat} (h : IsJoint shapes u)
    (hs : s ∈ shapes) : Spreads s u where
  rank := (h.rank u.length).mp le_rfl s hs
  size k hk := (h.size k _ hk).mpr ⟨s, hs, rfl⟩

theorem joinShape?_spreads {s t u : List Nat} (h : joinShape? s t = some u) :
    Spreads s u ∧ Spreads t u := by
  obtain ⟨hlen, hsizes⟩ := joinShape?_eq_some h
  refine ⟨⟨by omega, fun k hk => ?_⟩, ⟨by omega, fun k hk => ?_⟩⟩ <;>
    have hk := joinSize?_eq_some_iff.mp (hsizes k) <;> omega

theorem mem_positions_iff_forall₂ {s i : List Nat} :
    i ∈ positions s ↔ List.Forall₂ (· < ·) i s := by
  induction s generalizing i with
  | nil => simp [positions]
  | cons n s ih =>
    cases i with
    | nil => simp [positions]
    | cons j i => simp [positions, ih]

theorem mem_positions_iff {s i : List Nat} :
    i ∈ positions s ↔ i.length = s.length ∧ ∀ k < s.length, index i k < extent s k := by
  rw [mem_positions_iff_forall₂, ← List.forall₂_reverse_iff, List.forall₂_iff_get]
  simp only [List.length_reverse]
  refine and_congr_right fun hlen => ⟨fun h k hk => ?_, fun h k hi hs => ?_⟩
  · have hk' : k < i.length := hlen ▸ hk
    rw [index, extent, List.getD_eq_getElem _ _ (by simpa), List.getD_eq_getElem _ _ (by simpa)]
    exact h k hk' hk
  · have hlt := h k hs
    rwa [index, extent, List.getD_eq_getElem _ _ (by simpa), List.getD_eq_getElem _ _ (by simpa)]
      at hlt

theorem project_spec {s i : List Nat} (h : s.length ≤ i.length) :
    (project s i).length = s.length ∧
      ∀ k, index (project s i) k = if extent s k = 1 then 0 else index i k := by
  have hlen : (i.drop (i.length - s.length)).length = s.length := by simp; omega
  refine ⟨by simp [project, hlen], fun k => ?_⟩
  unfold index project extent
  rw [List.reverse_zipWith hlen.symm, List.reverse_drop, Nat.sub_sub_self h]
  rcases lt_or_ge k s.length with hk | hk
  · rw [List.getD_eq_getElem _ _ (by simp; omega), List.getD_eq_getElem _ _ (by simpa),
      List.getD_eq_getElem _ _ (by simp; omega)]
    simp
  · rw [List.getD_eq_default _ _ (by simp; omega), List.getD_eq_default _ _ (by simpa)]
    simp

theorem eq_of_index {i j : List Nat} (hlen : i.length = j.length) (h : ∀ k, index i k = index j k) :
    i = j :=
  eq_of_reverse_getD hlen h

theorem project_self {s i : List Nat} (h : i ∈ positions s) : project s i = i := by
  obtain ⟨hlen, hlt⟩ := mem_positions_iff.mp h
  obtain ⟨hplen, hindex⟩ := project_spec hlen.ge
  refine eq_of_index (hplen.trans hlen.symm) fun k => ?_
  rw [hindex]
  split_ifs with hk
  · rcases lt_or_ge k s.length with hks | hks
    · have := hlt k hks
      omega
    · rw [index, List.getD_eq_default]
      simpa [hlen] using hks
  · rfl

theorem project_mem {s u i : List Nat} (hs : Spreads s u) (h : i ∈ positions u) :
    project s i ∈ positions s := by
  obtain ⟨hlen, hlt⟩ := mem_positions_iff.mp h
  obtain ⟨hplen, hindex⟩ := project_spec (hlen ▸ hs.rank)
  refine mem_positions_iff.mpr ⟨hplen, fun k hk => ?_⟩
  rw [hindex]
  split_ifs with hone
  · omega
  · rw [← hs.size k hone]
    exact hlt k (hk.trans_le hs.rank)

theorem project_project {s t i : List Nat} (h : Spreads t s) (hi : s.length ≤ i.length) :
    project t (project s i) = project t i := by
  obtain ⟨hslen, hsindex⟩ := project_spec hi
  obtain ⟨hlen, hindex⟩ := project_spec (s := t) (i := project s i) (hslen ▸ h.rank)
  obtain ⟨hlen', hindex'⟩ := project_spec (h.rank.trans hi)
  refine eq_of_index (hlen.trans hlen'.symm) fun k => ?_
  rw [hindex, hindex', hsindex]
  by_cases hk : extent t k = 1
  · rw [if_pos hk, if_pos hk]
  · rw [if_neg hk, if_neg hk, if_neg (h.size k hk ▸ hk)]

end Nabla.NdArray
