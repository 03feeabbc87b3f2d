import Nabla.Error

/-!
# Plain data as numbers

Numbers, truth values and number texts can be read as a double or as a whole number; everything else
is refused. Fields are looked up by name, and whatever is neither a list nor a record can be looked up
by.
-/

namespace Nabla

/-- The double nearest to a whole number, if it is in range. -/
def floatOfInt (n : Int) : Except Error Float :=
  let x := Decimal.toFloat (n < 0) n.natAbs 0
  if x.isInf then .error .tooLarge else .ok x

/-- The whole part of a double. -/
def intOfFloat (x : Float) : Except Error Int :=
  match Dyadic.ofFloat? x with
  | some d => .ok d.truncate
  | none => .error (if x.isNaN then .undefinedInt else .infiniteInt)

namespace Json

def toFloat : Json → Except Error Float
  | bool b => .ok (if b then 1 else 0)
  | int n => floatOfInt n
  | float x => .ok x
  | str s => match Decimal.readFloat? s with
    | some x => .ok x
    | none => .error (.unreadableFloat s)
  | other => .error (.notReal other.kind)

def toInt : Json → Except Error Int
  | bool b => .ok (if b then 1 else 0)
  | int n => .ok n
  | float x => intOfFloat x
  | str s => match Decimal.excess? s, Decimal.readInt? s with
    | some count, _ => .error (.tooManyDigits count)
    | none, some n => .ok n
    | none, none => .error (.unreadableInt s)
  | other => .error (.notNumber other.kind)

/-- Looks up a field by name; only a record has fields. -/
def field : Json → String → Except Error Json
  | obj fields, key => match Table.find? fields key with
    | some j => .ok j
    | none => .error (.missingKey key)
  | arr _, _ => .error (.badPosition .list "str")
  | str _, _ => .error (.badPosition .text "str")
  | other, _ => .error (.notSubscriptable other.kind)

/-- The parts of a value one after the other: items, characters, or names of fields. -/
def elements : Json → Except Error (List Json)
  | arr items => .ok items
  | str s => .ok (s.toList.map fun c => .str (String.singleton c))
  | obj fields => .ok (fields.map fun p => .str p.1)
  | other => .error (.notIterable other.kind)

/-- Fails if nothing can be looked up by a value: lists and records are no keys. -/
def checkKey : Json → Except Error Unit
  | arr items => .error (.unhashable (arr items).kind)
  | obj fields => .error (.unhashable (obj fields).kind)
  | _ => .ok ()

end Json

end Nabla
