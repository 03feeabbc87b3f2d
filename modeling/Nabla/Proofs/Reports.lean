import Nabla.Field
import Nabla.Proofs.Sequence

/-!
# What operations report

An operation that cannot be performed adds errors at the end of one log and touches nothing else.
`Grew` says how many errors each log of a book has gained, and `Succeeds` is an operation that does
this and nothing worse.
-/

namespace Nabla

/-- A log with exactly `n` errors more, at the end. -/
def Log.Gains (l l' : Log) (n : Nat) : Prop :=
  ∃ es, l' = { l with entries := l.entries ++ es } ∧ es.length = n ∧
    ∀ e ∈ es, e.level = .known .error

theorem Log.Gains.refl (l : Log) : l.Gains l 0 := ⟨[], by simp, rfl, fun _ h => nomatch h⟩

theorem Log.Gains.trans {l l' l'' : Log} {n k : Nat} (h : l.Gains l' n) (h' : l'.Gains l'' k) :
    l.Gains l'' (n + k) := by
  obtain ⟨es, rfl, rfl, herr⟩ := h
  obtain ⟨es', rfl, rfl, herr'⟩ := h'
  refine ⟨es ++ es', ?_, List.length_append, List.forall_mem_append.mpr ⟨herr, herr'⟩⟩
  simp only [List.append_assoc]

namespace LogBook

/-- No log is lost, and every log has gained as many errors as `count` says. -/
structure Grew (count : LogId → Nat) (b b' : LogBook) : Prop where
  logs_le : b.logs.length ≤ b'.logs.length
  gains : ∀ id, (b.get id).Gains (b'.get id) (count id)

/-- Errors in one log only. -/
def only (log : LogId) (n : Nat) (id : LogId) : Nat := if id = log then n else 0

theorem Grew.refl (b : LogBook) : Grew (fun _ => 0) b b := ⟨Nat.le_refl _, fun _ => .refl _⟩

theorem Grew.trans {count count' : LogId → Nat} {b b' b'' : LogBook} (h : Grew count b b')
    (h' : Grew count' b' b'') : Grew (fun id => count id + count' id) b b'' :=
  ⟨Nat.le_trans h.logs_le h'.logs_le, fun id => (h.gains id).trans (h'.gains id)⟩

theorem only_zero (log : LogId) : only log 0 = fun _ => 0 := by
  funext id
  exact ite_self _

theorem only_add (log : LogId) (n k : Nat) :
    (fun id => only log n id + only log k id) = only log (n + k) := by
  funext id
  unfold only
  split <;> rfl

theorem grew_report {log : LogId} {b : LogBook} (h : log < b.logs.length)
    (message subject category found expected : String) :
    ∃ b', (report log (.known .error) message subject category found expected).run b = ((), b') ∧
      Grew (only log 1) b b' := by
  let e : Entry String :=
    { id := b.made, time := b.now, level := .known .error, message, subject, category, found, expected }
  let next : LogBook := { b with made := b.made + 1 }
  refine ⟨next.set log ((b.get log).add e), rfl, by simp [next, set], fun id => ?_⟩
  by_cases hid : id = log
  · subst hid
    rw [next.get_set_self _ h, only, if_pos rfl]
    exact ⟨[e], rfl, rfl, List.forall_mem_singleton.mpr rfl⟩
  · rw [next.get_set_of_ne _ hid, only, if_neg hid]
    exact .refl _

/-- The log that is used where one may be given: that one, or the next new one. -/
def given (b : LogBook) (log : Option LogId) : LogId := log.getD b.logs.length

theorem grew_orFresh {log : Option LogId} {b : LogBook} (h : ∀ id ∈ log, id < b.logs.length) :
    ∃ b', (orFresh log).run b = (b.given log, b') ∧ Grew (fun _ => 0) b b' ∧
      b.given log < b'.logs.length := by
  cases log with
  | some id => exact ⟨b, rfl, .refl b, h id rfl⟩
  | none =>
    refine ⟨{ b with logs := b.logs ++ [{}] }, rfl, ⟨by simp, fun id => ?_⟩, by simp [given]⟩
    -- A log that is not there yet reads as an empty one.
    have hget : LogBook.get { b with logs := b.logs ++ [{}] } id = b.get id := by
      unfold get
      rw [List.getD, List.getD]
      rcases Nat.lt_or_ge id b.logs.length with hid | hid
      · rw [List.getElem?_append_left hid]
      · rw [List.getElem?_append_right hid, List.getElem?_eq_none hid]
        cases id - b.logs.length <;> rfl
    rw [hget]
    exact .refl _

end LogBook

variable {α β : Type}

/-- Run on the book `b`, the operation succeeds, adds exactly `n` errors to the log `log`, and leaves a
result and a book as `P` says. -/
def Succeeds (m : Reporting α) (b : LogBook) (log : LogId) (n : Nat) (P : α → LogBook → Prop) : Prop :=
  ∃ a b', m.run.run b = (.ok a, b') ∧ LogBook.Grew (LogBook.only log n) b b' ∧ P a b'

namespace Succeeds

variable {b : LogBook} {log : LogId} {n k : Nat} {P : α → LogBook → Prop} {Q : β → LogBook → Prop}
  {m : Reporting α}

theorem of_run {a : α} (hrun : m.run.run b = (.ok a, b)) (h : P a b) : Succeeds m b log 0 P := by
  refine ⟨a, b, hrun, ?_, h⟩
  rw [LogBook.only_zero]
  exact .refl b

theorem of_state {m : StateM LogBook α} {a : α} {b' : LogBook} (hrun : m.run b = (a, b'))
    (hgrew : LogBook.Grew (LogBook.only log n) b b') (h : P a b') : Succeeds (liftM m) b log n P := by
  refine ⟨a, b', ?_, hgrew, h⟩
  show (Except.ok (m.run b).1, (m.run b).2) = _
  rw [hrun]

theorem bind {f : α → Reporting β} (hm : Succeeds m b log n P)
    (hf : ∀ a b', b.logs.length ≤ b'.logs.length → P a b' → Succeeds (f a) b' log k Q) :
    Succeeds (m >>= f) b log (n + k) Q := by
  obtain ⟨a, b', hrun, hgrew, hP⟩ := hm
  obtain ⟨c, b'', hrun', hgrew', hQ⟩ := hf a b' hgrew.logs_le hP
  refine ⟨c, b'', ?_, ?_, hQ⟩
  · rw [run_bind_of_ok hrun, hrun']
  · rw [← LogBook.only_add]
    exact hgrew.trans hgrew'

theorem map (hm : Succeeds m b log n P) (f : α → β) (hf : ∀ a b', P a b' → Q (f a) b') :
    Succeeds (do return f (← m)) b log n Q :=
  hm.bind fun a b' _ hP => of_run rfl (hf a b' hP)

theorem orFresh {log : Option LogId} {f : LogId → Reporting α} (h : ∀ id ∈ log, id < b.logs.length)
    (hf : ∀ b', b.given log < b'.logs.length → Succeeds (f (b.given log)) b' (b.given log) n P) :
    Succeeds (liftM (LogBook.orFresh log) >>= f) b (b.given log) n P := by
  obtain ⟨b', hrun, hgrew, hlt⟩ := LogBook.grew_orFresh h
  rw [← LogBook.only_zero (b.given log)] at hgrew
  have hopen : Succeeds (liftM (LogBook.orFresh log)) b (b.given log) 0
      fun id b' => id = b.given log ∧ b.given log < b'.logs.length :=
    of_state hrun hgrew ⟨rfl, hlt⟩
  rw [← Nat.zero_add n]
  refine hopen.bind fun id b' _ ⟨hid, hlt⟩ => ?_
  rw [hid]
  exact hf b' hlt

theorem refuse (h : log < b.logs.length) (message subject found expected : String) {a : α}
    (ha : ∀ b', b.logs.length ≤ b'.logs.length → P a b') :
    Succeeds (do Field.refuse log message subject found expected; return a) b log 1 P := by
  obtain ⟨b', hrun, hgrew⟩ := LogBook.grew_report h message subject Field.category found expected
  have hrefuse : Succeeds (liftM (Field.refuse log message subject found expected)) b log 1
      fun _ b' => b.logs.length ≤ b'.logs.length := of_state hrun hgrew hgrew.logs_le
  exact hrefuse.bind fun _ b' _ hle => of_run rfl (ha b' hle)

end Succeeds

end Nabla
