import Nabla.Text.Blank
import Nabla.Text.Digit

/-!
# Reading numbers from text

A number may stand between blanks, may carry a sign, may have single underscores between its digits,
and its digits may be those of any script. Whole numbers have digits only; a double may have a
fraction and an exponent, or be one of the words for infinity and for the undefined value.
-/

namespace Nabla.Decimal

/-- `digits * 10 ^ exponent` as the nearest double, ties to even. Far outside the range of the
doubles the power of ten is not computed. -/
def toFloat (negative : Bool) (digits : Nat) (exponent : Int) : Float :=
  let places : Int := (Text.digitsOf digits).length + exponent
  let x : Float :=
    if digits == 0 then 0
    else if 400 < places then 1.0 / 0.0
    else if places < -400 then 0
    else Float.ofScientific digits (exponent < 0) exponent.natAbs
  if negative then -x else x

/-- Every blank and every digit beyond ASCII as its ASCII counterpart. Any other character beyond ASCII
shows as a question mark, which no number holds. -/
def toAscii (cs : List Char) : List Char :=
  cs.map fun c =>
    if c.toNat < 128 then c
    else if Text.isWideBlank c then ' '
    else ((Text.digitValue? c).map Text.digitChar).getD '?'

/-- Drops underscores; each must stand between two digits. The flag says that a digit came just
before. -/
def dropUnderscores? : Bool → List Char → Option (List Char)
  | _, [] => some []
  | afterDigit, c :: rest =>
    if c == '_' then
      match rest with
      | d :: _ => if afterDigit && d.isDigit then dropUnderscores? false rest else none
      | [] => none
    else (dropUnderscores? c.isDigit rest).map (c :: ·)

/-- A leading sign, and what follows it. -/
def splitSign : List Char → Bool × List Char
  | '-' :: rest => (true, rest)
  | '+' :: rest => (false, rest)
  | cs => (false, cs)

/-- The exponent part of a number: empty, or a mark, a sign and digits up to the end. -/
def exponent? (marked : List Char) : Option Int :=
  match marked with
  | [] => some 0
  | c :: rest =>
    if c == 'e' || c == 'E' then
      let (negative, ds) := splitSign rest
      if ds.isEmpty || !ds.all Char.isDigit then none
      else
        let n : Int := Text.ofDigits ds
        some (if negative then -n else n)
    else none

/-- A numeral without sign, up to the end of the text. -/
def numeral? (cs : List Char) : Option (Nat × Int) :=
  let whole := cs.takeWhile Char.isDigit
  let rest := cs.dropWhile Char.isDigit
  let (fraction, rest) := match rest with
    | '.' :: more => (more.takeWhile Char.isDigit, more.dropWhile Char.isDigit)
    | _ => ([], rest)
  if whole.isEmpty && fraction.isEmpty then none
  else (exponent? rest).map fun e => (Text.ofDigits (whole ++ fraction), e - fraction.length)

/-- The words for doubles that are no numbers, in lower case. -/
def word? (s : String) : Option Float :=
  if s == "inf" || s == "infinity" then some (1.0 / 0.0)
  else if s == "nan" then some (0.0 / 0.0)
  else none

/-- The ASCII text of a number: blanks at the ends and underscores between digits are gone. -/
def plain? (s : String) : Option (List Char) :=
  dropUnderscores? false (Text.trimBlank (toAscii s.toList))

/-- Reads a double. -/
def readFloat? (s : String) : Option Float :=
  (plain? s).bind fun cs =>
    let (negative, body) := splitSign cs
    match word? (String.ofList (body.map Char.toLower)) with
    | some x => some (if negative then -x else x)
    | none => (numeral? body).map fun (digits, e) => toFloat negative digits e

/-- Reads a whole number of any length. -/
def readInt? (s : String) : Option Int :=
  (plain? s).bind fun cs =>
    let (negative, ds) := splitSign cs
    if ds.isEmpty || !ds.all Char.isDigit then none
    else
      let n : Int := Text.ofDigits ds
      some (if negative then -n else n)

/-- How many digits a whole number may have to be read. -/
def digitLimit : Nat := 4300

/-- The number of digits that the text of a whole number starts with, if they are too many. Digits with
an underscore out of place are not counted, and what follows them is not looked at. -/
def excess? (s : String) : Option Nat :=
  let (_, body) := splitSign (Text.trimBlank (toAscii s.toList))
  let run := body.takeWhile fun c => c.isDigit || c == '_'
  match dropUnderscores? false run with
  | some ds => if digitLimit < ds.length then some ds.length else none
  | none => none

end Nabla.Decimal
