import Mathlib.Data.List.Basic
import Nabla.Jacobian

/-!
# The layout of sparse matrices

Entries are sorted column by column and counted, and the sums of the counts say where each column
starts. The stretch between two starts then holds the entries of one column, from top to bottom.
-/

namespace Nabla.Jacobian

/-! ## Where columns start -/

theorem getElem?_foldl_modify (entries : List Partial) (counts : List Nat) (j : Nat) :
    (entries.foldl (fun counts e => counts.modify (e.col + 1) (· + 1)) counts)[j]? =
      counts[j]?.map (· + entries.countP fun e => e.col + 1 = j) := by
  induction entries generalizing counts with
  | nil => simp
  | cons e entries ih =>
    rw [List.foldl_cons, ih, List.getElem?_modify, List.countP_cons]
    by_cases h : e.col + 1 = j
    · cases hj : counts[j]? with
      | none => simp [h]
      | some n => simp [h]; omega
    · simp [h]

theorem getElem?_tally {cols j : Nat} (entries : List Partial) (h : j ≤ cols) :
    (tally cols entries)[j]? = some (entries.countP fun e => e.col + 1 = j) := by
  unfold tally
  rw [getElem?_foldl_modify, List.getElem?_replicate, if_pos (by omega)]
  simp

theorem length_foldl_modify (entries : List Partial) (counts : List Nat) :
    (entries.foldl (fun counts e => counts.modify (e.col + 1) (· + 1)) counts).length =
      counts.length := by
  induction entries generalizing counts with
  | nil => rfl
  | cons e entries ih => rw [List.foldl_cons, ih, List.length_modify]

theorem length_runningSums (sum : Nat) (ns : List Nat) :
    (runningSums sum ns).length = ns.length := by
  induction ns generalizing sum with
  | nil => rfl
  | cons n ns ih => rw [runningSums, List.length_cons, ih, List.length_cons]

theorem length_starts (cols : Nat) (entries : List Partial) :
    (starts cols entries).length = cols + 1 := by
  unfold starts tally
  rw [length_runningSums, length_foldl_modify, List.length_replicate]

theorem getElem?_runningSums_zero (sum : Nat) (ns : List Nat) :
    (runningSums sum ns)[0]? = ns[0]?.map (sum + ·) := by
  cases ns <;> rfl

theorem getElem?_runningSums_succ {sum j s n : Nat} {ns : List Nat}
    (hs : (runningSums sum ns)[j]? = some s) (hn : ns[j + 1]? = some n) :
    (runningSums sum ns)[j + 1]? = some (s + n) := by
  induction ns generalizing sum j with
  | nil => exact nomatch hn
  | cons m ns ih =>
    cases j with
    | zero =>
      obtain rfl : sum + m = s := Option.some.inj hs
      rw [List.getElem?_cons_succ] at hn
      rw [runningSums, List.getElem?_cons_succ, getElem?_runningSums_zero, hn]
      rfl
    | succ j =>
      rw [runningSums, List.getElem?_cons_succ] at hs ⊢
      exact ih hs hn

theorem countP_col_lt_succ (entries : List Partial) (c : Nat) :
    entries.countP (fun e => e.col < c + 1) =
      entries.countP (fun e => e.col < c) + entries.countP fun e => e.col + 1 = c + 1 := by
  induction entries with
  | nil => rfl
  | cons e entries ih =>
    simp only [List.countP_cons, ih, decide_eq_true_eq]
    split_ifs <;> omega

theorem getElem?_starts {cols c : Nat} (entries : List Partial) (h : c ≤ cols) :
    (starts cols entries)[c]? = some (entries.countP fun e => e.col < c) := by
  induction c with
  | zero =>
    unfold starts
    rw [getElem?_runningSums_zero, getElem?_tally entries h]
    simp
  | succ c ih =>
    rw [countP_col_lt_succ]
    exact getElem?_runningSums_succ (ih (by omega)) (getElem?_tally entries h)

theorem le_of_mem_runningSums {sum x : Nat} {ns : List Nat} (h : x ∈ runningSums sum ns) :
    sum ≤ x := by
  induction ns generalizing sum with
  | nil => exact nomatch h
  | cons n ns ih =>
    rcases List.mem_cons.mp h with rfl | h
    · omega
    · have := ih h
      omega

theorem pairwise_runningSums (sum : Nat) (ns : List Nat) :
    (runningSums sum ns).Pairwise (· ≤ ·) := by
  induction ns generalizing sum with
  | nil => exact .nil
  | cons n ns ih => exact .cons (fun _ => le_of_mem_runningSums) (ih _)

/-! ## Stretches of a sorted list -/

theorem countP_lt_eq_zero {α : Type} {key : α → Nat} {l : List α} {c : Nat}
    (h : ∀ a ∈ l, c ≤ key a) : l.countP (fun a => key a < c) = 0 := by
  rw [List.countP_eq_zero]
  intro a ha
  have := h a ha
  simpa using this

theorem stretch_eq_filter {α : Type} {key : α → Nat} {l : List α}
    (h : l.Pairwise fun a b => key a ≤ key b) (c : Nat) :
    (l.drop (l.countP fun a => key a < c)).take
      (l.countP (fun a => key a < c + 1) - l.countP fun a => key a < c) =
      l.filter fun a => key a = c := by
  induction l with
  | nil => rfl
  | cons a l ih =>
    obtain ⟨ha, hl⟩ := List.pairwise_cons.mp h
    have ihl := ih hl
    simp only [List.countP_cons, List.filter_cons, decide_eq_true_eq]
    rcases Nat.lt_trichotomy (key a) c with hlt | rfl | hgt
    · have hlt' : key a < c + 1 := by omega
      rw [if_pos hlt, if_pos hlt', if_neg (by omega), List.drop_succ_cons, Nat.add_sub_add_right, ihl]
    · -- the stretch starts here: nothing behind has a smaller key
      have h0 := countP_lt_eq_zero ha
      rw [h0] at ihl ⊢
      rw [if_pos (Nat.lt_succ_self (key a)), if_neg (Nat.lt_irrefl (key a)), if_pos rfl]
      exact congrArg (a :: ·) ihl
    · -- the stretch is over: everything behind has a larger key
      have h0 := countP_lt_eq_zero fun b hb => Nat.le_trans (Nat.le_of_lt hgt) (ha b hb)
      have h1 := countP_lt_eq_zero (c := c + 1) fun b hb => Nat.le_trans hgt (ha b hb)
      have hlt' : ¬ key a < c + 1 := by omega
      rw [h0, h1] at ihl ⊢
      rw [if_neg (Nat.lt_asymm hgt), if_neg hlt', if_neg (Nat.ne_of_gt hgt), ← ihl]
      rfl

/-! ## Entries in column order -/

/-- The entries stand column by column, each column from top to bottom, and no place twice. -/
def InColumns (entries : List Partial) : Prop :=
  entries.Pairwise fun a b => a.col < b.col ∨ a.col = b.col ∧ a.row < b.row

theorem before_iff {a b : Partial} :
    before a b = true ↔ a.col < b.col ∨ a.col = b.col ∧ a.row ≤ b.row := by
  simp [before]

theorem inColumns_columnMajor {entries : List Partial}
    (h : entries.Pairwise fun a b => ¬ (a.row = b.row ∧ a.col = b.col)) :
    InColumns (columnMajor entries) := by
  have hsorted : (columnMajor entries).Pairwise fun a b => before a b = true := by
    apply List.pairwise_mergeSort
    · intro a b c hab hbc
      rw [before_iff] at *
      omega
    · intro a b
      rw [Bool.or_eq_true, before_iff, before_iff]
      omega
  -- sorting moves entries about, but two of them still have different places
  have hdistinct : (columnMajor entries).Pairwise fun a b => ¬ (a.row = b.row ∧ a.col = b.col) := by
    refine (List.mergeSort_perm entries before).symm.pairwise h ?_
    intro a b hab hba
    exact hab ⟨hba.1.symm, hba.2.symm⟩
  refine (hsorted.and hdistinct).imp fun {a b} hab => ?_
  obtain ⟨hle, hne⟩ := hab
  rw [before_iff] at hle
  omega

end Nabla.Jacobian

namespace Nabla.SparseMatrix

/-- The starts divide the stored entries into columns, and in each column the rows increase. -/
structure WellFormed (m : SparseMatrix) : Prop where
  length_starts : m.starts.length = m.cols + 1
  starts_zero : m.starts[0]? = some 0
  starts_mono : m.starts.Pairwise (· ≤ ·)
  starts_last : m.starts[m.cols]? = some m.indices.length
  length_data : m.data.length = m.indices.length
  rows_increasing : ∀ c < m.cols, ((m.column c).map Prod.fst).Pairwise (· < ·)
  rows_bounded : ∀ r ∈ m.indices, r < m.rows

/-! ## Adding up a column -/

theorem foldl_of_not_mem {l : List (Nat × Float)} {r : Nat} (h : ∀ x, (r, x) ∉ l) (sum : Float) :
    l.foldl (fun sum (row, x) => if row = r then sum + x else sum) sum = sum := by
  induction l generalizing sum with
  | nil => rfl
  | cons p l ih =>
    obtain ⟨row, y⟩ := p
    have hrow : row ≠ r := fun hr => h y (hr ▸ List.mem_cons_self)
    simp only [List.foldl_cons, if_neg hrow]
    exact ih (fun x hx => h x (List.mem_cons_of_mem _ hx)) sum

theorem foldl_of_mem {l : List (Nat × Float)} (hl : (l.map Prod.fst).Pairwise (· < ·)) {r : Nat}
    {x : Float} (h : (r, x) ∈ l) (sum : Float) :
    l.foldl (fun sum (row, x) => if row = r then sum + x else sum) sum = sum + x := by
  induction l generalizing sum with
  | nil => exact nomatch h
  | cons p l ih =>
    obtain ⟨row, y⟩ := p
    obtain ⟨hrow, hl⟩ := List.pairwise_cons.mp hl
    rcases List.mem_cons.mp h with heq | h
    · obtain ⟨rfl, rfl⟩ := Prod.mk.inj heq
      simp only [List.foldl_cons, if_true]
      refine foldl_of_not_mem (fun z hz => ?_) _
      exact Nat.lt_irrefl r (hrow r (List.mem_map_of_mem hz))
    · have hne : row ≠ r := Nat.ne_of_lt (hrow r (List.mem_map_of_mem h))
      simp only [List.foldl_cons, if_neg hne]
      exact ih hl h sum

theorem entry_of_mem {m : SparseMatrix} (hm : m.WellFormed) {r c : Nat} (hc : c < m.cols) {x : Float}
    (h : (r, x) ∈ m.column c) : m.entry r c = 0 + x :=
  foldl_of_mem (hm.rows_increasing c hc) h 0

theorem entry_of_not_mem {m : SparseMatrix} {r c : Nat} (h : ∀ x, (r, x) ∉ m.column c) :
    m.entry r c = 0 :=
  foldl_of_not_mem h 0

theorem exists_dense (m : SparseMatrix) {r c : Nat} (hr : r < m.rows) (hc : c < m.cols) :
    ∃ row, m.dense[r]? = some row ∧ row[c]? = some (m.entry r c) := by
  refine ⟨(List.range m.cols).map (m.entry r), ?_, ?_⟩
  · rw [dense, List.getElem?_map, List.getElem?_range hr]
    rfl
  · rw [List.getElem?_map, List.getElem?_range hc]
    rfl

end Nabla.SparseMatrix

namespace Nabla.Jacobian

/-! ## The stored matrix -/

variable {j : Jacobian} {data : List Float}

theorem pairwise_zip {α β : Type} {R : α → α → Prop} {xs : List α} {ys : List β}
    (h : xs.Pairwise R) (hlen : ys.length = xs.length) :
    (xs.zip ys).Pairwise fun p q => R p.1 q.1 := by
  have hfst : (xs.zip ys).map Prod.fst = xs := List.map_fst_zip (by omega)
  rw [← hfst, List.pairwise_map] at h
  exact h

/-- Of the stored entries those of one column make up the column. -/
theorem column_fill (hin : InColumns j.entries) (hlen : data.length = j.entries.length) {c : Nat}
    (hc : c < j.cols) :
    (j.fill data).column c =
      ((j.entries.zip data).filter fun p => p.1.col = c).map fun p => (p.1.row, p.2) := by
  have hfst : (j.entries.zip data).map Prod.fst = j.entries := List.map_fst_zip (by omega)
  have hcount : ∀ k, (j.entries.zip data).countP (fun p => p.1.col < k) =
      j.entries.countP fun e => e.col < k := by
    intro k
    conv_rhs => rw [← hfst, List.countP_map]
    rfl
  have hsorted : (j.entries.zip data).Pairwise fun p q => p.1.col ≤ q.1.col :=
    (pairwise_zip hin hlen).imp fun h => by omega
  have hzip : (j.entries.map Partial.row).zip data =
      (j.entries.zip data).map fun p => (p.1.row, p.2) := List.zip_map_left ..
  unfold SparseMatrix.column fill
  simp only [List.getD_eq_getElem?_getD, getElem?_starts j.entries (Nat.le_of_lt hc),
    getElem?_starts j.entries (Nat.succ_le_of_lt hc), Option.getD_some]
  rw [hzip, ← List.map_drop, ← List.map_take, ← hcount, ← hcount, stretch_eq_filter hsorted]

theorem mem_column_fill (hin : InColumns j.entries) (hlen : data.length = j.entries.length)
    {r c : Nat} (hc : c < j.cols) {x : Float} :
    (r, x) ∈ (j.fill data).column c ↔ ∃ e, (e, x) ∈ j.entries.zip data ∧ e.row = r ∧ e.col = c := by
  rw [column_fill hin hlen hc, List.mem_map]
  constructor
  · rintro ⟨⟨e, y⟩, hp, heq⟩
    obtain ⟨rfl, rfl⟩ := Prod.mk.inj heq
    rw [List.mem_filter, decide_eq_true_eq] at hp
    exact ⟨e, hp.1, rfl, hp.2⟩
  · rintro ⟨e, he, rfl, hcol⟩
    refine ⟨(e, x), ?_, rfl⟩
    rw [List.mem_filter, decide_eq_true_eq]
    exact ⟨he, hcol⟩

theorem rows_increasing_fill (hin : InColumns j.entries) (hlen : data.length = j.entries.length)
    {c : Nat} (hc : c < j.cols) :
    (((j.fill data).column c).map Prod.fst).Pairwise (· < ·) := by
  have hpairs := pairwise_zip hin hlen
  rw [column_fill hin hlen hc, List.map_map, List.pairwise_map, List.pairwise_filter]
  refine hpairs.imp fun {p q} h hp hq => ?_
  rw [decide_eq_true_eq] at hp hq
  show p.1.row < q.1.row
  omega

theorem wellFormed_fill (hin : InColumns j.entries) (hlen : data.length = j.entries.length)
    (hcols : ∀ e ∈ j.entries, e.col < j.cols) (hrows : ∀ e ∈ j.entries, e.row < j.rows) :
    (j.fill data).WellFormed where
  length_starts := length_starts j.cols j.entries
  starts_zero := by
    show (starts j.cols j.entries)[0]? = some 0
    rw [getElem?_starts j.entries (Nat.zero_le _)]
    simp
  starts_mono := pairwise_runningSums 0 _
  starts_last := by
    have hall : j.entries.countP (fun e => e.col < j.cols) = j.entries.length := by
      rw [List.countP_eq_length]
      intro e he
      simpa using hcols e he
    show (starts j.cols j.entries)[j.cols]? = some (j.entries.map Partial.row).length
    rw [getElem?_starts j.entries (Nat.le_refl _), hall, List.length_map]
  length_data := by
    show data.length = (j.entries.map Partial.row).length
    rw [hlen, List.length_map]
  rows_increasing := fun _ hc => rows_increasing_fill hin hlen hc
  rows_bounded := by
    intro r hr
    obtain ⟨e, he, rfl⟩ := List.mem_map.mp hr
    exact hrows e he

end Nabla.Jacobian
