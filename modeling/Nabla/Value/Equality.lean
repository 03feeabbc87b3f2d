import Nabla.Value.Basic

/-!
# Equality of values

Expressions and functions are equal by structure, plain numbers and truth values as numbers. Fields,
logs, entries and settings are equal only to themselves. Values of different sorts are never equal,
except that an array is held against a list entry by entry.
-/

namespace Nabla

namespace Value

mutual

def same : Value → Value → Bool
  | plain a, v => match v with
    | plain b => a.same b
    | _ => false
  | list as, v => match v with
    | list bs => sameAll as bs
    | _ => false
  | tuple as, v => match v with
    | tuple bs => sameAll as bs
    | _ => false
  | expr a, v => match v with
    | expr b => a == b
    | _ => false
  | lambda f, v => match v with
    | lambda g => f.same g
    | _ => false
  | field i _, v => match v with
    | field j _ => i == j
    | _ => false
  | log i, v => match v with
    | log j => i == j
    | _ => false
  | settings i, v => match v with
    | settings j => i == j
    | _ => false
  | severity a, v => match v with
    | severity b => a == b
    | _ => false
  | entry a, v => match v with
    | entry b => a.id == b.id
    | _ => false
  | array _, _ => false

def sameAll : List Value → List Value → Bool
  | [], vs => vs.isEmpty
  | a :: as, vs => match vs with
    | b :: bs => same a b && sameAll as bs
    | [] => false

end

/-! ## With arrays -/

/-- The first number or other single thing in nested lists. -/
def leaf? : Value → Option Value
  | list (v :: _) | tuple (v :: _) => leaf? v
  | list [] | tuple [] => none
  | array x => x.toList.head?.map fun a => plain (.float a)
  | other => some other

/-- Whether an array equals a value. They are compared entry by entry, and only a single comparison
counts as yes or no. -/
def arrayEquals (logs : LogBook) (x : NdArray Float) (v : Value) : Except Error Bool := do
  let v := v.spread logs
  let o := v.outline
  unless o.even do throw (.ragged o.shape)
  match NdArray.joinShape? x.shape o.shape with
  | none => throw (.shapes x.shape o.shape)
  | some shape =>
    checkTruth ⟨shape, fun _ => 0⟩
    match (array x).leaf?, v.leaf? with
    | some a, some b => return a.same b
    | _, _ => return false

/-- Whether two arrays are alike to the bit, as one array is with itself. -/
def alike (x y : NdArray Float) : Bool :=
  x.shape == y.shape && x.toList.map Float.toBits == y.toList.map Float.toBits

mutual

/-- Whether two values are equal. -/
def equal (logs : LogBook) : Value → Value → Except Error Bool
  | array x, v => arrayEquals logs x v
  | list as, v => match v with
    | list bs => if as.length = bs.length then equalAll logs as bs else .ok false
    | array y => arrayEquals logs y (list as)
    | _ => .ok false
  | tuple as, v => match v with
    | tuple bs => if as.length = bs.length then equalAll logs as bs else .ok false
    | array y => arrayEquals logs y (tuple as)
    | _ => .ok false
  | a, v => match v with
    | array y => arrayEquals logs y a
    | b => .ok (a.same b)

/-- Whether the items of two lists of one length are equal. What is the same thing is not compared. -/
def equalAll (logs : LogBook) : List Value → List Value → Except Error Bool
  | a :: as, v => match v with
    | b :: bs => do
      let known := match a, b with
        | array x, array y => alike x y
        | _, _ => false
      if known || (← equal logs a b) then equalAll logs as bs else return false
    | [] => .ok true
  | [], _ => .ok true

end

/-! ## Keys -/

/-- Fails if nothing can be looked up by some of the data. -/
def checkData : List Json → Except Error Unit
  | [] => .ok ()
  | j :: rest => do
    j.checkKey
    checkData rest

mutual

/-- Fails if nothing can be looked up by a value: lists, records and arrays are no keys. -/
def checkKey : Value → Except Error Unit
  | expr e => checkData e.data
  | lambda f => checkData (Expr.dataAll f.components)
  | list items => .error (.unhashable (list items).kind)
  | tuple items => checkKeys items
  | plain (.obj fields) => .error (.unhashable (Json.obj fields).kind)
  | array x => .error (.unhashable (array x).longKind)
  | _ => .ok ()

def checkKeys : List Value → Except Error Unit
  | [] => .ok ()
  | v :: rest => do
    checkKey v
    checkKeys rest

end

/-- Sets the value of a key; of equal keys the first is kept. -/
def setKey {α : Type} (t : List (Value × α)) (key : Value) (a : α) : List (Value × α) :=
  match t with
  | [] => [(key, a)]
  | (k, b) :: rest => if k.same key then (k, a) :: rest else (k, b) :: setKey rest key a

/-- The entries of a table that is filled pair by pair. -/
def entries {α : Type} (pairs : List (Value × α)) : Except Error (List (Value × α)) := do
  for (key, _) in pairs do checkKey key
  return pairs.foldl (fun t (key, a) => setKey t key a) []

end Value

end Nabla
