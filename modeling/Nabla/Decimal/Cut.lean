import Nabla.Decimal.Printer

/-!
# Decimals with a bounded number of places

The fewest digits that read back, or the nearest decimal on a grid where those are too many.
-/

namespace Nabla.Decimal

/-- The multiple of `10 ^ k` nearest to a number, in units of `10 ^ k`; a tie goes to the even one. -/
def nearest (d : Dyadic) (k : Int) : Nat :=
  let n := Neighbourhood.ofDyadic d
  let a := decimalScale n.unit k
  let c := n.centre * binaryScale n.unit k
  let below := c / a
  let twice := 2 * (c % a)
  if twice < a || (twice == a && below % 2 == 0) then below else below + 1

/-- A number without its sign, with no digit behind the place `k`. -/
def cutAt (d : Dyadic) (k : Int) : Decimal :=
  let s := shortest d
  if k ≤ s.exponent then s else stripZeros (maxDigits + 1) ⟨nearest d k, k⟩

/-- A positive number with at most `places + 1` digits. -/
def cutTo (d : Dyadic) (places : Nat) : Decimal :=
  let s := shortest d
  if digitCount s.digits ≤ places + 1 then s
  else
    let k := (Neighbourhood.ofDyadic d).leadingPlace - places
    stripZeros (maxDigits + 1) ⟨nearest d k, k⟩

/-- The pieces of a written number. -/
structure Pieces where
  /-- The sign and the digits before the point. -/
  whole : List Char
  fraction : List Char
  /-- The place of the leading digit, where an exponent is written. -/
  place : Int

def dropZeros (ds : List Char) : List Char := (ds.reverse.dropWhile (· == '0')).reverse

/-- A number written positionally, with at most `places` digits behind the point. -/
def fixedPieces (places : Nat) (d : Dyadic) : Pieces :=
  let scaled := if d.significand == 0 then 0
    else
      let c := cutAt d (-places)
      c.digits * positivePower 10 (c.exponent + places)
  let unit := positivePower 10 places
  { whole := signed d.negative (Text.digitsOf (scaled / unit))
    fraction := dropZeros (padLeft places (Text.digitsOf (scaled % unit)))
    place := 0 }

/-- A number written with an exponent, with at most `places` digits behind the point. -/
def floatingPieces (places : Nat) (d : Dyadic) : Pieces :=
  if d.significand == 0 then ⟨signed d.negative ['0'], [], 0⟩
  else
    let c := cutTo d places
    let ds := Text.digitsOf c.digits
    ⟨signed d.negative (ds.take 1), ds.drop 1, c.exponent + (ds.length - 1)⟩

end Nabla.Decimal
