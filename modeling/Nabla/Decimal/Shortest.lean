import Nabla.Decimal.Dyadic
import Nabla.Text.Digit

/-!
# The fewest digits that read back

Every double stands for an interval of reals: those that round to it. Of the decimals in that
interval, the shortest one is written, and of the shortest ones the nearest to the double.
-/

namespace Nabla

/-- The number `digits * 10 ^ exponent`. -/
structure Decimal where
  digits : Nat
  exponent : Int
deriving DecidableEq, Repr

namespace Decimal

/-- The reals that round to a double, in quarters of its last place: `centre` is the double itself.
The ends belong to the interval when the significand is even, and the lower half is narrower where
the spacing of the doubles changes. -/
structure Neighbourhood where
  low : Nat
  centre : Nat
  high : Nat
  /-- The quarter of the last place is `2 ^ unit`. -/
  unit : Int
  closed : Bool

def Neighbourhood.ofDyadic (d : Dyadic) : Neighbourhood where
  low := 4 * d.significand - if d.significand == Dyadic.twoTo 52 && -1074 < d.exponent then 1 else 2
  centre := 4 * d.significand
  high := 4 * d.significand + 2
  unit := d.exponent - 2
  closed := d.significand % 2 == 0

/-- `base ^ e` where the exponent is positive, and one elsewhere. -/
def positivePower (base : Nat) (e : Int) : Nat := Nat.pow base e.toNat

/-- `d * 10 ^ k` is compared with `x * 2 ^ unit` as `d * decimalScale` with `x * binaryScale`. -/
def decimalScale (unit k : Int) : Nat := positivePower 10 k * positivePower 2 (-unit)

def binaryScale (unit k : Int) : Nat := positivePower 10 (-k) * positivePower 2 unit

def Neighbourhood.contains (n : Neighbourhood) (k : Int) (d : Nat) : Bool :=
  let a := d * decimalScale n.unit k
  let b := binaryScale n.unit k
  if n.closed then n.low * b ≤ a && a ≤ n.high * b else n.low * b < a && a < n.high * b

/-- The multiple of `10 ^ k` in the neighbourhood that is nearest to the centre, if there is one.
Only the two neighbours of the centre on that grid can be; a tie goes to the even one. -/
def Neighbourhood.onGrid? (n : Neighbourhood) (k : Int) : Option Nat :=
  let a := decimalScale n.unit k
  let c := n.centre * binaryScale n.unit k
  let below := c / a
  let above := below + 1
  match n.contains k below, n.contains k above with
  | true, true =>
    let twice := 2 * (c % a)
    some (if twice < a || (twice == a && below % 2 == 0) then below else above)
  | true, false => some below
  | false, true => some above
  | false, false => none

def digitCount (n : Nat) : Nat := (Text.digitsOf n).length

/-- The place of the leading digit: the number lies in `[10 ^ e, 10 ^ (e + 1))`. -/
def Neighbourhood.leadingPlace (n : Neighbourhood) : Int :=
  let num := n.centre * positivePower 2 n.unit
  let den := positivePower 2 (-n.unit)
  if den ≤ num then digitCount (num / den) - 1 else -(digitCount ((den - 1) / num) : Int)

/-- Moves the zeros at the end of the digits into the exponent. -/
def stripZeros : Nat → Decimal → Decimal
  | 0, d => d
  | fuel + 1, d =>
    if d.digits != 0 && d.digits % 10 == 0 then stripZeros fuel ⟨d.digits / 10, d.exponent + 1⟩ else d

/-- The first of the grids with `count`, `count + 1`, ... digits that meets the neighbourhood. -/
def Neighbourhood.search (n : Neighbourhood) (place : Int) : Nat → Nat → Option Decimal
  | 0, _ => none
  | fuel + 1, count =>
    let k := place - (count - 1)
    match n.onGrid? k with
    | some d => some ⟨d, k⟩
    | none => n.search place fuel (count + 1)

/-- Seventeen digits are enough for every double. -/
def maxDigits : Nat := 17

/-- The shortest decimal that reads back as the given positive number. -/
def shortest (d : Dyadic) : Decimal :=
  let n := Neighbourhood.ofDyadic d
  stripZeros (maxDigits + 1) <|
    (n.search n.leadingPlace maxDigits 1).getD ⟨d.significand, d.exponent⟩

end Nabla.Decimal
