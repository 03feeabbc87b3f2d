import Mathlib.Data.List.Induction
import Mathlib.Data.List.Nodup
import Nabla.Log.Basic

/-!
# The groups of a log

Entries are put into groups one after the other. The table that comes out is described at once by
`groupBy`: a name for each first occurrence, and under it what is made of all members with that name,
in their order. The two levels of a log are both of this form.
-/

namespace Nabla

/-! ## First occurrences -/

theorem eraseDups_concat (ks : List String) (k : String) :
    (ks ++ [k]).eraseDups = if k ∈ ks then ks.eraseDups else ks.eraseDups ++ [k] := by
  rw [List.eraseDups_append]
  by_cases hk : k ∈ ks
  · have hgone : [k].removeAll ks = [] := by simp [List.removeAll, hk]
    rw [if_pos hk, hgone, List.eraseDups_nil, List.append_nil]
  · have hkept : [k].removeAll ks = [k] := by simp [List.removeAll, hk]
    rw [if_neg hk, hkept]
    rfl

theorem nodup_eraseDups (ks : List String) : ks.eraseDups.Nodup := by
  induction ks using List.reverseRecOn with
  | nil => exact List.nodup_nil
  | append_singleton ks k ih =>
    rw [eraseDups_concat]
    split
    · exact ih
    · rename_i hk
      rw [List.nodup_append]
      refine ⟨ih, List.nodup_singleton k, ?_⟩
      rintro a ha b hb rfl
      rw [List.mem_singleton.mp hb, List.mem_eraseDups] at ha
      exact hk ha

namespace Table

variable {α β : Type}

/-! ## Tables of groups -/

/-- The table of a function on some names. -/
def ofFun (ks : List String) (h : String → β) : Table β := ks.map fun k => (k, h k)

@[simp] theorem keys_ofFun (ks : List String) (h : String → β) : (ofFun ks h).keys = ks := by
  simp [ofFun, keys, Function.comp_def]

theorem find?_ofFun (ks : List String) (h : String → β) (name : String) :
    (ofFun ks h).find? name = if name ∈ ks then some (h name) else none := by
  induction ks with
  | nil => rfl
  | cons k ks ih =>
    show (if k = name then some (h k) else (ofFun ks h).find? name) = _
    rw [ih]
    by_cases hk : k = name
    · simp [hk]
    · simp [hk, Ne.symm hk]

theorem set_ofFun {ks : List String} (hks : ks.Nodup) (h : String → β) (name : String) (a : β) :
    (ofFun ks h).set name a =
      ofFun (if name ∈ ks then ks else ks ++ [name]) fun k => if k = name then a else h k := by
  induction ks with
  | nil => simp [ofFun, set]
  | cons k ks ih =>
    obtain ⟨hk, hks⟩ := List.nodup_cons.mp hks
    show (if k = name then (k, a) :: ofFun ks h else (k, h k) :: (ofFun ks h).set name a) = _
    by_cases hname : k = name
    · subst hname
      have hrest : ofFun ks h = ofFun ks fun k' => if k' = k then a else h k' := by
        refine List.map_congr_left fun k' hk' => ?_
        have hne : k' ≠ k := fun heq => hk (heq ▸ hk')
        simp only [hne, if_false]
      rw [if_pos rfl, if_pos List.mem_cons_self, hrest]
      simp [ofFun]
    · rw [if_neg hname, ih hks]
      by_cases hmem : name ∈ ks <;> simp [ofFun, hname, Ne.symm hname, hmem]

/-- Under each key, in order of first occurrence, what `f` makes of the members that have it. -/
def groupBy (key : α → String) (f : List α → β) (xs : List α) : Table β :=
  ofFun (xs.map key).eraseDups fun k => f (xs.filter (key · = k))

@[simp] theorem keys_groupBy (key : α → String) (f : List α → β) (xs : List α) :
    (groupBy key f xs).keys = (xs.map key).eraseDups := keys_ofFun _ _

theorem find?_groupBy (key : α → String) (f : List α → β) (xs : List α) (k : String) :
    (groupBy key f xs).find? k =
      if k ∈ xs.map key then some (f (xs.filter (key · = k))) else none := by
  rw [groupBy, find?_ofFun]
  simp only [List.mem_eraseDups]

theorem getD_find?_groupBy (key : α → String) {f : List α → β} (xs : List α) (k : String) :
    ((groupBy key f xs).find? k).getD (f []) = f (xs.filter (key · = k)) := by
  rw [find?_groupBy]
  split
  · rfl
  · rename_i hk
    have hnone : xs.filter (key · = k) = [] := by
      rw [List.filter_eq_nil_iff]
      intro x hx hkey
      exact hk (List.mem_map.mpr ⟨x, hx, of_decide_eq_true hkey⟩)
    rw [hnone]
    rfl

theorem groupBy_concat (key : α → String) {f : List α → β} {g : β → α → β}
    (hf : ∀ ys y, f (ys ++ [y]) = g (f ys) y) (xs : List α) (x : α) :
    groupBy key f (xs ++ [x]) = (groupBy key f xs).set (key x)
      (g (((groupBy key f xs).find? (key x)).getD (f [])) x) := by
  rw [getD_find?_groupBy, groupBy, groupBy, set_ofFun (nodup_eraseDups _), List.map_append,
    List.map_singleton, eraseDups_concat]
  simp only [List.mem_eraseDups]
  congr 1
  funext k
  rw [List.filter_append]
  by_cases hk : key x = k
  · simp [hk, hf]
  · simp [hk, Ne.symm hk]

theorem groupBy_ne_nil (key : α → String) (f : List α → β) {xs : List α} (h : xs ≠ []) :
    groupBy key f xs ≠ [] := by
  obtain ⟨x, hx⟩ := List.exists_mem_of_ne_nil xs h
  have hkey : key x ∈ (groupBy key f xs).keys := by
    rw [keys_groupBy, List.mem_eraseDups]
    exact List.mem_map_of_mem hx
  intro hnil
  rw [hnil] at hkey
  cases hkey

theorem exists_of_mem_groupBy {key : α → String} {f : List α → β} {xs : List α} {p : String × β}
    (h : p ∈ groupBy key f xs) : ∃ ys, ys ≠ [] ∧ p.2 = f ys := by
  obtain ⟨k, hk, rfl⟩ := List.mem_map.mp h
  rw [List.mem_eraseDups] at hk
  obtain ⟨x, hx, rfl⟩ := List.mem_map.mp hk
  have hmem : x ∈ xs.filter (key · = key x) := List.mem_filter.mpr ⟨hx, decide_eq_true rfl⟩
  exact ⟨_, List.ne_nil_of_mem hmem, rfl⟩

/-- How many rows there are in all groups of a table. -/
def rowCount (t : Table (List α)) : Nat := (t.flatMap Prod.snd).length

end Table

theorem Severity.name_injective {v w : Severity} (h : v.name = w.name) : v = w := by
  have hof : Severity.ofName? v.name = Severity.ofName? w.name := by rw [h]
  simpa using hof

theorem Level.is_known (v w : Severity) : Level.is (.known w) v = decide (w = v) := rfl

namespace Log

theorem rowCount_addTo {α : Type} (t : Table (List α)) (name : String) (a : α) :
    (addTo t name a).rowCount = t.rowCount + 1 := by
  induction t with
  | nil => rfl
  | cons p t ih =>
    obtain ⟨key, rows⟩ := p
    by_cases hkey : key = name
    · simp only [addTo, Table.find?, Table.set, hkey, if_true, Table.rowCount, List.flatMap_cons,
        Option.getD_some, List.length_append, List.length_singleton]
      omega
    · simp only [addTo, Table.find?, Table.set, hkey, if_false, Table.rowCount, List.flatMap_cons,
        List.length_append] at ih ⊢
      omega

/-! ## By severity and message -/

/-- What is shown of the severity of an entry; nothing if it cannot be shown. -/
def title (e : Entry String) : String := e.level.name.toOption.getD ""

/-- The rows of some entries by message. -/
def byMessage (es : List (Entry String)) : Table (List (List String)) :=
  Table.groupBy (·.message) (·.map detail) es

theorem byMessage_concat (es : List (Entry String)) (e : Entry String) :
    byMessage (es ++ [e]) = addTo (byMessage es) e.message (detail e) :=
  Table.groupBy_concat (·.message) (g := fun rows e => rows ++ [detail e])
    (fun _ _ => List.map_append) es e

theorem rowCount_byMessage (es : List (Entry String)) : (byMessage es).rowCount = es.length := by
  induction es using List.reverseRecOn with
  | nil => rfl
  | append_singleton es e ih =>
    rw [byMessage_concat, rowCount_addTo, ih, List.length_append, List.length_singleton]

theorem foldlM_addEntry {es : List (Entry String)} (h : ∀ e ∈ es, e.level.name = .ok (title e)) :
    es.foldlM addEntry [] = .ok (Table.groupBy title byMessage es) := by
  induction es using List.reverseRecOn with
  | nil => rfl
  | append_singleton es e ih =>
    obtain ⟨hes, he⟩ := List.forall_mem_append.mp h
    rw [List.foldlM_append, ih hes, Table.groupBy_concat title
      (g := fun t e => addTo t e.message (detail e)) byMessage_concat]
    show (addEntry _ e >>= pure) = _
    rw [bind_pure, addEntry, he e List.mem_cons_self]
    rfl

/-! ## Known severities -/

/-- All entries have a severity. -/
def Graded (l : Log) : Prop := ∀ e ∈ l.entries, ∃ v, e.level = .known v

theorem graded_empty : Graded {} := by
  intro e he
  cases he

/-- The entries of a severity. -/
def ofSeverity (l : Log) (v : Severity) : List (Entry String) := l.entries.filter (·.level.is v)

/-- The rows under a severity and a message; none if there is no such group. -/
def Groups.rows (g : Groups) (v : Severity) (message : String) : List (List String) :=
  (((g.find? v.name).getD []).find? message).getD []

/-- The groups `g` hold the entries of the log, in their order and with nothing else. -/
structure GroupedAs (l : Log) (g : Groups) : Prop where
  rows : ∀ v message,
    g.rows v message = ((l.ofSeverity v).filter (·.message = message)).map detail
  severities : g.keys = (l.entries.map title).eraseDups
  messages : ∀ v, Table.keys ((g.find? v.name).getD []) = ((l.ofSeverity v).map (·.message)).eraseDups
  filled : ∀ group ∈ g, group.2 ≠ [] ∧ ∀ part ∈ group.2, part.2 ≠ []
  count : ∀ v, Table.rowCount ((g.find? v.name).getD []) = l.count v

variable {l : Log}

theorem title_eq_iff {e : Entry String} {v w : Severity} (h : e.level = .known w) :
    title e = v.name ↔ e.level.is v := by
  rw [title, h, Level.is_known, decide_eq_true_iff]
  exact ⟨Severity.name_injective, fun heq => by rw [heq]; rfl⟩

theorem Graded.filter_title (h : l.Graded) (v : Severity) :
    l.entries.filter (title · = v.name) = l.ofSeverity v := by
  refine List.filter_congr fun e he => ?_
  obtain ⟨w, hw⟩ := h e he
  rw [Bool.eq_iff_iff, decide_eq_true_iff]
  exact title_eq_iff hw

theorem length_ofSeverity (l : Log) (v : Severity) : (l.ofSeverity v).length = l.count v :=
  (List.countP_eq_length_filter).symm

theorem Graded.groups_eq (h : l.Graded) :
    l.groups = .ok (Table.groupBy title byMessage l.entries) := by
  refine foldlM_addEntry fun e he => ?_
  obtain ⟨w, hw⟩ := h e he
  rw [title, hw]
  rfl

theorem Graded.groupedAs (h : l.Graded) : l.GroupedAs (Table.groupBy title byMessage l.entries) := by
  -- The group of a severity, which is empty if it is not there.
  have hgroup : ∀ v : Severity, ((Table.groupBy title byMessage l.entries).find? v.name).getD [] =
      byMessage (l.ofSeverity v) := by
    intro v
    rw [← h.filter_title]
    exact Table.getD_find?_groupBy title l.entries v.name
  refine ⟨?_, Table.keys_groupBy _ _ _, ?_, ?_, ?_⟩
  · intro v message
    rw [Groups.rows, hgroup]
    exact Table.getD_find?_groupBy (·.message) (f := (·.map detail)) (l.ofSeverity v) message
  · intro v
    rw [hgroup]
    exact Table.keys_groupBy _ _ _
  · intro group hmem
    obtain ⟨es, hes, hmade⟩ := Table.exists_of_mem_groupBy hmem
    rw [hmade]
    refine ⟨Table.groupBy_ne_nil _ _ hes, fun part hpart => ?_⟩
    obtain ⟨es', hes', hrows⟩ := Table.exists_of_mem_groupBy hpart
    rw [hrows]
    exact mt List.map_eq_nil_iff.mp hes'
  · intro v
    rw [hgroup, rowCount_byMessage, length_ofSeverity]

theorem Graded.count_add_count (h : l.Graded) :
    l.count .information + l.count .warning + l.count .error = l.entries.length := by
  obtain ⟨es, debug⟩ := l
  change ∀ e ∈ es, _ at h
  show es.countP _ + es.countP _ + es.countP _ = es.length
  induction es with
  | nil => rfl
  | cons e es ih =>
    obtain ⟨⟨v, hv⟩, hes⟩ := List.forall_mem_cons.mp h
    have hcount := ih hes
    simp only [List.countP_cons, hv, Level.is_known, List.length_cons]
    cases v <;> simp <;> omega

end Log

end Nabla
