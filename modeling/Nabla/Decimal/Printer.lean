import Nabla.Decimal.Shortest

/-!
# The text of a double

Fewest digits that read back; positional where the leading digit stands between the fourth place
behind the point and the sixteenth before it, with an exponent elsewhere.
-/

namespace Nabla.Decimal

/-- How a decimal is laid out. -/
structure Layout where
  /-- The leading places that are written positionally. -/
  lowestPlace : Int
  highestPlace : Int
  /-- What ends a positional text without a fraction. -/
  wholeEnd : List Char
  mark : Char
  exponentWidth : Nat

/-- Places -4 to 15 are positional and keep a point; an exponent has a sign and two digits. -/
def Layout.standard : Layout := ⟨-4, 15, ['.', '0'], 'e', 2⟩

/-- Zeros in front, up to the width. -/
def padLeft (width : Nat) (ds : List Char) : List Char :=
  List.replicate (width - ds.length) '0' ++ ds

/-- `ds` are the digits and `place` is the place of the first one. -/
def positional (l : Layout) (ds : List Char) (place : Int) : List Char :=
  if place < 0 then ['0', '.'] ++ List.replicate (-place - 1).toNat '0' ++ ds
  else
    let front := place.toNat + 1
    if ds.length ≤ front then ds ++ List.replicate (front - ds.length) '0' ++ l.wholeEnd
    else ds.take front ++ '.' :: ds.drop front

def scientific (l : Layout) (ds : List Char) (place : Int) : List Char :=
  let fraction := match ds.drop 1 with
    | [] => []
    | rest => '.' :: rest
  ds.take 1 ++ fraction ++ l.mark :: (if place < 0 then '-' else '+') ::
    padLeft l.exponentWidth (Text.digitsOf place.natAbs)

def layOut (l : Layout) (d : Decimal) : List Char :=
  let ds := Text.digitsOf d.digits
  let place := d.exponent + (ds.length - 1)
  if l.lowestPlace ≤ place && place ≤ l.highestPlace then positional l ds place
  else scientific l ds place

def signed (negative : Bool) (cs : List Char) : List Char := if negative then '-' :: cs else cs

/-- The text of a finite double. -/
def finiteText (d : Dyadic) : List Char :=
  signed d.negative <|
    if d.significand == 0 then ['0', '.', '0'] else layOut .standard (shortest d)

/-- How the doubles that are no numbers are spelled. -/
structure Spelling where
  nan : String
  infinity : String

/-- The text of any double. -/
def textWith (s : Spelling) (x : Float) : String :=
  match Dyadic.ofFloat? x with
  | some d => String.ofList (finiteText d)
  | none => if x.isNaN then s.nan else if x < 0 then "-" ++ s.infinity else s.infinity

/-- The text of a double in listings and messages. -/
def text (x : Float) : String := textWith ⟨"nan", "inf"⟩ x

end Nabla.Decimal
