/-!
# Tables in order of insertion

Names with values. A name keeps the place where it was first set, and the value that was set last.
-/

namespace Nabla

abbrev Table (α : Type u) := List (String × α)

namespace Table

variable {α : Type u}

/-- The value under a name. -/
def find? (t : Table α) (name : String) : Option α :=
  match t with
  | [] => none
  | (key, a) :: rest => if key = name then some a else find? rest name

/-- Replaces the value under a name, or adds the name at the end. -/
def set (t : Table α) (name : String) (a : α) : Table α :=
  match t with
  | [] => [(name, a)]
  | (key, b) :: rest => if key = name then (key, a) :: rest else (key, b) :: set rest name a

/-- Sets the pairs of a list one after the other. -/
def ofPairs (pairs : List (String × α)) : Table α :=
  pairs.foldl (fun t p => t.set p.1 p.2) []

def keys (t : Table α) : List String := t.map Prod.fst

@[simp] theorem find?_nil (name : String) : find? ([] : Table α) name = none := rfl

@[simp] theorem find?_set_self (t : Table α) (name : String) (a : α) :
    (t.set name a).find? name = some a := by
  induction t with
  | nil => simp [set, find?]
  | cons p rest ih =>
    obtain ⟨key, b⟩ := p
    by_cases h : key = name <;> simp [set, find?, h, ih]

theorem find?_set_of_ne (t : Table α) {name other : String} (a : α) (h : other ≠ name) :
    (t.set name a).find? other = t.find? other := by
  induction t with
  | nil => simp [set, find?, h.symm]
  | cons p rest ih =>
    obtain ⟨key, b⟩ := p
    by_cases hk : key = name
    · subst hk; simp [set, find?, h.symm]
    · simp only [set, hk, if_false, find?, ih]

@[simp] theorem keys_cons (key : String) (a : α) (t : Table α) :
    keys ((key, a) :: t) = key :: keys t := rfl

end Table

end Nabla
