import Nabla.Decimal.Dyadic
import Nabla.Json.Basic

/-!
# Equality of plain data

Numbers and truth values are equal as numbers, and exactly: a whole number equals a double only if the
double is that number. Records are equal whatever the order of their fields.
-/

namespace Nabla

namespace Json

/-- A number as it compares: exactly. -/
def comparable? : Json → Option (Int ⊕ Float)
  | bool b => some (.inl (if b then 1 else 0))
  | int n => some (.inl n)
  | float x => some (.inr x)
  | _ => none

def sameNumber (a b : Json) : Bool :=
  match a.comparable?, b.comparable? with
  | some (.inl m), some (.inl n) => m == n
  | some (.inr x), some (.inr y) => x == y
  | some (.inl m), some (.inr y) => whole? y == some m
  | some (.inr x), some (.inl n) => whole? x == some n
  | _, _ => false

mutual

def same : Json → Json → Bool
  | null, b => match b with
    | null => true
    | _ => false
  | str s, b => match b with
    | str t => s == t
    | _ => false
  | arr items, b => match b with
    | arr others => sameItems items others
    | _ => false
  | obj fields, b => match b with
    | obj others => fields.length == others.length && sameFields fields others
    | _ => false
  | bool x, b => sameNumber (bool x) b
  | int n, b => sameNumber (int n) b
  | float x, b => sameNumber (float x) b

def sameItems : List Json → List Json → Bool
  | [], bs => bs.isEmpty
  | a :: as, bs => match bs with
    | b :: bs => same a b && sameItems as bs
    | [] => false

/-- Whether each field has its like among the others. -/
def sameFields : List (String × Json) → List (String × Json) → Bool
  | [], _ => true
  | (key, a) :: rest, others => match Table.find? others key with
    | some b => same a b && sameFields rest others
    | none => false

end

end Json

end Nabla
