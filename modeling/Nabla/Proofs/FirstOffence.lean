import Mathlib.Data.List.Induction
import Nabla.Proofs.PointwiseEvaluation
import Nabla.Proofs.Sequence
import Nabla.Value.Calculus

/-!
# The first offence

Evaluation at numbers fails at a variable without a value and at a function of which only the name is
known, and nowhere else. Of several such nodes the first one counts, where a node comes before its
parts and the parts come from left to right. The same walk meets the variables in the order in which
they are listed.
-/

namespace Nabla

/-! ## Failures -/

/-- Why a computation fails, if it does. -/
def failure? {ε α : Type} : Except ε α → Option ε
  | .ok _ => none
  | .error err => some err

section Failure

variable {ε α β γ : Type}

theorem failure?_eq_some_iff {m : Except ε α} {err : ε} :
    failure? m = some err ↔ m = .error err := by
  cases m <;> simp [failure?]

theorem failure?_eq_none_iff {m : Except ε α} : failure? m = none ↔ ∃ a, m = .ok a := by
  cases m <;> simp [failure?]

theorem failure?_map (m : Except ε α) (f : α → β) : failure? (m.map f) = failure? m := by
  cases m <;> rfl

theorem failure?_operands (m : Except ε α) (m' : Except ε β) (f : α → β → γ) :
    failure? (do return f (← m) (← m')) = (failure? m).or (failure? m') := by
  cases m <;> cases m' <;> rfl

end Failure

namespace Table

variable {α : Type}

theorem isSome_find?_iff {t : Table α} {name : String} :
    (t.find? name).isSome = true ↔ name ∈ t.keys := by
  induction t with
  | nil => simp [keys]
  | cons p rest ih =>
    obtain ⟨key, a⟩ := p
    by_cases hk : key = name
    · simp [find?, hk]
    · simp [find?, hk, ih, Ne.symm hk]

end Table

namespace Expr

/-! ## The nodes in their order -/

mutual

/-- The nodes of a tree: each before its parts, and the parts from left to right. -/
def nodes : Expr → List Expr
  | const c => [const c]
  | var x => [var x]
  | neg a => neg a :: nodes a
  | binary op a b => binary op a b :: (nodes a ++ nodes b)
  | call f a => call f a :: nodes a
  | powCall a b => powCall a b :: (nodes a ++ nodes b)
  | unknown n a rest => unknown n a rest :: (nodes a ++ nodesOfAll rest)
  | blank => [blank]
  | pair a b => pair a b :: (nodes a ++ nodes b)
  | datum j => [datum j]
  | oddVar n => [oddVar n]

def nodesOfAll : List Expr → List Expr
  | [] => []
  | e :: es => nodes e ++ nodesOfAll es

end

theorem nodesOfAll_eq_flatMap (es : List Expr) : nodesOfAll es = es.flatMap nodes := by
  induction es with
  | nil => rfl
  | cons e es ih => rw [nodesOfAll, ih, List.flatMap_cons]

theorem nodes_eq_cons (e : Expr) : e.nodes = e :: e.children.flatMap nodes := by
  cases e <;> simp [nodes, children, nodesOfAll_eq_flatMap]

/-! ## Variables in their order -/

/-- The name of a variable. -/
def varName? : Expr → Option String
  | var x => some x
  | _ => none

/-- The names of the variables as often as they occur, in the order of the nodes. -/
def leafNames (e : Expr) : List String := e.nodes.filterMap varName?

theorem leafNames_eq (e : Expr) :
    e.leafNames = e.varName?.toList ++ e.children.flatMap leafNames := by
  unfold leafNames
  rw [nodes_eq_cons, List.filterMap_cons, List.filterMap_flatMap]
  cases e.varName? <;> rfl

theorem collectAll_eq_foldl {es : List Expr}
    (h : ∀ e ∈ es, ∀ seen, collect seen e = e.leafNames.foldl addName seen) (seen : List String) :
    collectAll seen es = (es.flatMap leafNames).foldl addName seen := by
  induction es generalizing seen with
  | nil => rfl
  | cons e es ih =>
    simp only [List.forall_mem_cons] at h
    rw [collectAll, h.1, ih h.2, List.flatMap_cons, List.foldl_append]

theorem collect_eq_foldl (e : Expr) (seen : List String) :
    collect seen e = e.leafNames.foldl addName seen := by
  induction e generalizing seen with
  | const | var | blank | datum | oddVar => rfl
  | neg a iha | call f a iha => simp [leafNames_eq, varName?, children, collect, iha]
  | binary op a b iha ihb | powCall a b iha ihb | pair a b iha ihb =>
    rw [leafNames_eq]
    simp [varName?, children, collect, iha, ihb]
  | unknown n a rest iha ihrest =>
    rw [leafNames_eq]
    simp [varName?, children, collect, iha, collectAll_eq_foldl ihrest]

theorem mem_foldl_addName {l seen : List String} {x : String} :
    x ∈ l.foldl addName seen ↔ x ∈ seen ∨ x ∈ l := by
  induction l generalizing seen with
  | nil => simp
  | cons y l ih => simp [ih, mem_addName, or_assoc]

theorem pairwise_foldl_addName (l : List String) :
    (l.foldl addName []).Pairwise fun x y => l.idxOf x < l.idxOf y := by
  -- A new name stands behind all names met before, so the list is extended at its end.
  induction l using List.reverseRecOn with
  | nil => simp
  | append_singleton l z ih =>
    have hmem : ∀ x ∈ l.foldl addName [], x ∈ l := by simp [mem_foldl_addName]
    have hkept : (l.foldl addName []).Pairwise fun x y => (l ++ [z]).idxOf x < (l ++ [z]).idxOf y := by
      refine ih.imp_of_mem ?_
      intro x y hx hy hxy
      rwa [List.idxOf_append_of_mem (hmem x hx), List.idxOf_append_of_mem (hmem y hy)]
    rw [List.foldl_append, List.foldl_cons, List.foldl_nil]
    rw [addName]
    split_ifs with hz
    · exact hkept
    · have hz : z ∉ l := by simpa [mem_foldl_addName] using hz
      rw [List.pairwise_append]
      refine ⟨hkept, List.pairwise_singleton _ _, ?_⟩
      intro x hx y hy
      rw [List.mem_singleton.mp hy, List.idxOf_append_of_mem (hmem x hx),
        List.idxOf_append_of_notMem hz]
      have := List.idxOf_lt_length_of_mem (hmem x hx)
      omega

theorem variableNames_eq_foldl (e : Expr) : e.variableNames = e.leafNames.foldl addName [] :=
  collect_eq_foldl e []

theorem mem_leafNames {e : Expr} {x : String} : x ∈ e.leafNames ↔ var x ∈ e.nodes := by
  unfold leafNames
  rw [List.mem_filterMap]
  constructor
  · rintro ⟨t, ht, hx⟩
    cases t <;> simp only [varName?, Option.some.injEq, reduceCtorEq] at hx
    rwa [← hx]
  · intro h
    exact ⟨var x, h, rfl⟩

theorem mem_variableNames_iff_mem_nodes {e : Expr} {x : String} :
    x ∈ e.variableNames ↔ var x ∈ e.nodes := by
  simp [variableNames_eq_foldl, mem_foldl_addName, mem_leafNames]

/-! ## Offences -/

/-- Why evaluation cannot go on at a node, whatever its parts are. -/
def offence? {β : Type} (ρ : String → Option β) : Expr → Option Error
  | var x => if (ρ x).isSome then none else some (.unbound x)
  | unknown n _ _ => some (.unknownFunction n)
  | _ => none

theorem failure?_evalWith (A : Arithmetic Float) (ρ : String → Option Float) {e : Expr}
    (h : e.obstacle = none) :
    failure? (e.evalWith (.scalar A id) ρ) = e.nodes.findSome? (offence? ρ) := by
  induction e with
  | const c => rfl
  | var x =>
    unfold evalWith
    cases hx : ρ x <;> simp [nodes, offence?, hx, failure?]
  | neg a iha | call f a iha =>
    rw [nodes, List.findSome?_cons_of_isNone (by rfl), ← iha h, evalWith]
    cases evalWith (.scalar A id) ρ a <;> rfl
  | binary op a b iha ihb | powCall a b iha ihb =>
    obtain ⟨ha, hb⟩ := orElse_eq_none_iff.mp h
    rw [nodes, List.findSome?_cons_of_isNone (by rfl), List.findSome?_append, ← iha ha, ← ihb hb]
    exact failure?_operands _ _ _
  -- the function is refused before its arguments are looked at
  | unknown n a rest => rfl
  | blank | pair | datum | oddVar => cases h

theorem offence?_congr {β γ : Type} {ρ : String → Option β} {ρ' : String → Option γ}
    (h : ∀ x, (ρ x).isSome = (ρ' x).isSome) (t : Expr) : t.offence? ρ = t.offence? ρ' := by
  cases t <;> simp [offence?, h]

theorem forall_offence?_iff {β : Type} {ρ : String → Option β} {e : Expr} :
    (∀ t ∈ e.nodes, t.offence? ρ = none) ↔
      (∀ x ∈ e.variableNames, (ρ x).isSome = true) ∧
        ∀ t ∈ e.nodes, ∀ f args, t.call? = some (f, args) → f.known?.isSome = true := by
  constructor
  · intro h
    constructor
    · intro x hx
      have hoffence := h _ (mem_variableNames_iff_mem_nodes.mp hx)
      by_contra hnone
      simp [offence?, hnone] at hoffence
    · intro t ht f args hcall
      have hoffence := h t ht
      cases t <;> simp [offence?, call?] at hoffence hcall <;> simp [← hcall.1, Callee.known?]
  · rintro ⟨hvars, hcalls⟩ t ht
    cases t with
    | var x => simp [offence?, hvars x (mem_variableNames_iff_mem_nodes.mpr ht)]
    | unknown n a rest => simpa [Callee.known?] using hcalls _ ht _ _ rfl
    | _ => rfl

end Expr

/-! ## Numbers under names -/

namespace Value

/-- The values are numbers, and none of them has the reserved name. -/
structure Numeric (given : Table Value) (numbers : Table Float) : Prop where
  read : List.Forall₂ (fun p q => p.1 = q.1 ∧ p.2.toArray = .ok (.scalar q.2)) given numbers
  unreserved : Lambda.reserved ∉ given.keys

namespace Numeric

variable {given : Table Value} {numbers : Table Float}

theorem keys_eq (h : Numeric given numbers) : given.keys = numbers.keys := by
  have hread := h.read
  clear h
  induction hread with
  | nil => rfl
  | cons hp _ ih => exact congrArg₂ List.cons hp.1 ih

theorem toBindings_eq (h : Numeric given numbers) :
    toBindings given = .ok (numbers.map (Prod.map id .scalar)) := by
  unfold toBindings
  rw [if_neg (by rw [Table.isSome_find?_iff]; exact h.unreserved), mapM_eq_ok_iff,
    List.forall₂_map_right_iff]
  refine h.read.imp ?_
  rintro ⟨key, v⟩ ⟨key', x⟩ ⟨rfl, hv⟩
  simp only at hv
  simp only [hv]
  rfl

theorem evalAt_eq (h : Numeric given numbers) (e : Expr) :
    (expr e).evalAt given =
      (e.evalWith (.scalar .double id) numbers.find?).map fun x => .plain (.float x) := by
  unfold evalAt
  rw [h.toBindings_eq]
  show (do return ofArray (← e.eval (numbers.map (Prod.map id .scalar)))) = _
  rw [eval_numbers]
  cases e.evalWith (.scalar .double id) numbers.find? <;> rfl

theorem isSome_find? (h : Numeric given numbers) (x : String) :
    (numbers.find? x).isSome = (given.find? x).isSome := by
  rw [Bool.eq_iff_iff, Table.isSome_find?_iff, Table.isSome_find?_iff, h.keys_eq]

end Numeric

end Value

/-- The variables of a tree are listed once each, in the order in which the walk through the nodes
meets them. Evaluation at numbers succeeds exactly if all of them have values and all functions are
known, fails as the first node says that offends, and only depends on the variables of the tree. -/
theorem evaluation_fails_at_first_offence {e : Expr} (he : e.obstacle = none) :
    (e.listVariables = .ok e.variableNames ∧ e.variableNames.Nodup ∧
      (∀ x, x ∈ e.variableNames ↔ .var x ∈ e.nodes) ∧
      e.variableNames.Pairwise fun x y => e.leafNames.idxOf x < e.leafNames.idxOf y) ∧
    ∀ given numbers, Value.Numeric given numbers →
      ((∃ v, (Value.expr e).evalAt given = .ok v) ↔
        (∀ x ∈ e.variableNames, x ∈ given.keys) ∧
          ∀ t ∈ e.nodes, ∀ f args, t.call? = some (f, args) → f.known?.isSome = true) ∧
      (∀ err, (Value.expr e).evalAt given = .error err ↔
        ∃ before t after, e.nodes = before ++ t :: after ∧
          t.offence? given.find? = some err ∧ ∀ u ∈ before, u.offence? given.find? = none) ∧
      ∀ given' numbers', Value.Numeric given' numbers' →
        (∀ x ∈ e.variableNames, numbers.find? x = numbers'.find? x) →
        (Value.expr e).evalAt given = (Value.expr e).evalAt given' := by
  have hordered := Expr.pairwise_foldl_addName e.leafNames
  rw [← Expr.variableNames_eq_foldl] at hordered
  refine ⟨⟨?_, ?_, fun x => Expr.mem_variableNames_iff_mem_nodes, hordered⟩, ?_⟩
  · exact Expr.listVariables_of_finished he
  · refine hordered.imp ?_
    rintro x y hlt rfl
    omega
  · intro given numbers h
    have hfailure : failure? ((Value.expr e).evalAt given) =
        e.nodes.findSome? (Expr.offence? given.find?) := by
      rw [h.evalAt_eq, failure?_map, Expr.failure?_evalWith .double _ he,
        funext (Expr.offence?_congr h.isSome_find?)]
    refine ⟨?_, ?_, ?_⟩
    · rw [← failure?_eq_none_iff, hfailure, List.findSome?_eq_none_iff, Expr.forall_offence?_iff]
      simp only [Table.isSome_find?_iff]
    · intro err
      rw [← failure?_eq_some_iff, hfailure, List.findSome?_eq_some_iff]
    · intro given' numbers' h' hagree
      rw [h.evalAt_eq, h'.evalAt_eq, Expr.evalWith_congr hagree]

/-- An unknown function inside a sum, with a variable without a value behind it and one inside. -/
theorem evaluation_fails_at_first_offence_nested :
    let e := Expr.add (.call .sin (.var "x")) (.mul (.unknown "g" (.var "y") [.var "x"]) (.var "z"))
    let given := [("x", Value.plain (.float 1)), ("w", .plain .null)]
    e.obstacle = none ∧ Value.Numeric given [("x", 1), ("w", 0.0 / 0.0)] ∧
      e.listVariables = .ok ["x", "y", "z"] ∧
      (Value.expr e).evalAt given = .error (.unknownFunction "g") ∧
      (Value.expr e).evalAt [] = .error (.unbound "x") := by
  intro e given
  have he : e.obstacle = none := rfl
  have hgiven : Value.Numeric given [("x", 1), ("w", 0.0 / 0.0)] := by
    refine ⟨.cons ⟨rfl, rfl⟩ (.cons ⟨rfl, rfl⟩ .nil), by decide⟩
  have hnone : Value.Numeric [] [] := ⟨.nil, by decide⟩
  obtain ⟨⟨hlist, -⟩, heval⟩ := evaluation_fails_at_first_offence he
  refine ⟨he, hgiven, hlist, ?_, ?_⟩
  · rw [(heval _ _ hgiven).2.1]
    exact ⟨[e, .call .sin (.var "x"), .var "x", _], _, _, rfl, rfl, by
      simp [Expr.offence?, given, Table.find?, e, Expr.add, Expr.mul]⟩
  · rw [(heval _ _ hnone).2.1]
    exact ⟨[e, .call .sin (.var "x")], _, _, rfl, rfl, by simp [Expr.offence?, e, Expr.add]⟩

end Nabla
