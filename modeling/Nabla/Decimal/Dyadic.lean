/-!
# Doubles as exact numbers

A finite double is a whole number times a power of two. Everything exact about a double (its digits,
whether it is whole, its whole part) is read off that form.
-/

namespace Nabla

/-- The number `significand * 2 ^ exponent`, with a sign that zero has as well. -/
structure Dyadic where
  negative : Bool
  significand : Nat
  exponent : Int
deriving DecidableEq, Repr

namespace Dyadic

/-- The power `2 ^ n`. -/
def twoTo (n : Nat) : Nat := Nat.pow 2 n

/-- The exact value of a double, if it is finite. -/
def ofFloat? (x : Float) : Option Dyadic :=
  let bits : Nat := x.toBits.toNat
  let negative := bits / twoTo 63 == 1
  let biased : Nat := bits / twoTo 52 % twoTo 11
  let fraction := bits % twoTo 52
  if biased == 2047 then none
  else if biased == 0 then some ⟨negative, fraction, -1074⟩
  else some ⟨negative, twoTo 52 + fraction, (biased : Int) - 1075⟩

def withSign (negative : Bool) (n : Nat) : Int :=
  if negative then -(n : Int) else n

/-- The whole part: what stands behind the point is cut off. -/
def truncate (d : Dyadic) : Int :=
  withSign d.negative <|
    if 0 ≤ d.exponent then d.significand * twoTo d.exponent.toNat
    else d.significand / twoTo (-d.exponent).toNat

def isWhole (d : Dyadic) : Bool :=
  0 ≤ d.exponent || d.significand % twoTo (-d.exponent).toNat == 0

/-- The value, if it is a whole number. -/
def whole? (d : Dyadic) : Option Int :=
  if d.isWhole then some d.truncate else none

end Dyadic

/-- The exact value of a double that is a whole number. -/
def whole? (x : Float) : Option Int := (Dyadic.ofFloat? x).bind Dyadic.whole?

end Nabla
