import Nabla.Error

/-!
# Reading JSON text

Strict JSON, with three more words for the doubles that are no numbers: `NaN`, `Infinity` and
`-Infinity`. Of a repeated key the last value counts, at the place of the first. Raw control
characters in texts, a byte order mark and anything behind the value are refused, and so is a whole
number with too many digits: of several faults the first in the text counts.
-/

namespace Nabla.Json

def isBlank (c : Char) : Bool := c == ' ' || c == '\t' || c == '\n' || c == '\r'

def skipBlank (cs : List Char) : List Char := cs.dropWhile isBlank

/-! ## Texts -/

def hexValue? (c : Char) : Option Nat :=
  let n := c.toNat
  if '0' ≤ c && c ≤ '9' then some (n - '0'.toNat)
  else if 'a' ≤ c && c ≤ 'f' then some (n - 'a'.toNat + 10)
  else if 'A' ≤ c && c ≤ 'F' then some (n - 'A'.toNat + 10)
  else none

def unit? (a b c d : Char) : Option Nat :=
  match hexValue? a, hexValue? b, hexValue? c, hexValue? d with
  | some a, some b, some c, some d => some (((a * 16 + b) * 16 + c) * 16 + d)
  | _, _, _, _ => none

/-- The character behind a backslash, other than `u`. -/
def escaped? (c : Char) : Option Nat :=
  if c == '"' || c == '\\' || c == '/' then some c.toNat
  else if c == 'b' then some 8
  else if c == 'f' then some 12
  else if c == 'n' then some 10
  else if c == 'r' then some 13
  else if c == 't' then some 9
  else none

/-- The rest of a text up to its closing mark, as code points and escaped units, and what follows. -/
def units? : List Char → Option (List Nat × List Char)
  | [] => none
  | '"' :: rest => some ([], rest)
  | '\\' :: 'u' :: a :: b :: c :: d :: rest => do
    let u ← unit? a b c d
    let (us, rest) ← units? rest
    return (u :: us, rest)
  | '\\' :: c :: rest => do
    let u ← escaped? c
    let (us, rest) ← units? rest
    return (u :: us, rest)
  | c :: rest =>
    if c.toNat < 0x20 then none
    else do
      let (us, rest) ← units? rest
      return (c.toNat :: us, rest)

def isHighUnit (u : Nat) : Bool := 0xd800 ≤ u && u < 0xdc00

def isLowUnit (u : Nat) : Bool := 0xdc00 ≤ u && u < 0xe000

/-- The character of a code point; a unit without its partner shows as the replacement character. -/
def charOf (u : Nat) : Char := if u.isValidChar then Char.ofNat u else Char.ofNat 0xfffd

/-- Joins the pairs of units that stand for one character. -/
def joinUnits : List Nat → List Char
  | [] => []
  | [u] => [charOf u]
  | u :: v :: rest =>
    if isHighUnit u && isLowUnit v then
      charOf (0x10000 + (u - 0xd800) * 0x400 + (v - 0xdc00)) :: joinUnits rest
    else charOf u :: joinUnits (v :: rest)

def readText (cs : List Char) : Except Error (String × List Char) :=
  match units? cs with
  | some (us, rest) => .ok (String.ofList (joinUnits us), rest)
  | none => .error .malformedJson

/-! ## Numbers -/

/-- The part of a number behind a point, if a point with a digit stands there. -/
def fraction (cs : List Char) : Option (List Char) × List Char :=
  match cs with
  | '.' :: rest =>
    match rest.takeWhile Char.isDigit with
    | [] => (none, cs)
    | ds => (some ds, rest.dropWhile Char.isDigit)
  | _ => (none, cs)

/-- The exponent of a number, if a mark, perhaps a sign, and a digit stand there. -/
def exponent (cs : List Char) : Option Int × List Char :=
  match cs with
  | c :: rest =>
    if c == 'e' || c == 'E' then
      let (negative, body) := Decimal.splitSign rest
      match body.takeWhile Char.isDigit with
      | [] => (none, cs)
      | ds =>
        let n : Int := Text.ofDigits ds
        (some (if negative then -n else n), body.dropWhile Char.isDigit)
    else (none, cs)
  | [] => (none, cs)

/-- The digits before the point: a zero alone, or digits that do not start with one. -/
def wholePart? (cs : List Char) : Option (List Char × List Char) :=
  match cs with
  | '0' :: rest => some (['0'], rest)
  | c :: _ => if c.isDigit then some (cs.takeWhile Char.isDigit, cs.dropWhile Char.isDigit) else none
  | [] => none

/-- A number. Without point and exponent it is a whole number. -/
def readNumber (negative : Bool) (cs : List Char) : Except Error (Json × List Char) :=
  match wholePart? cs with
  | none => .error .malformedJson
  | some (whole, rest) =>
    let (behind, rest) := fraction rest
    let (power, rest) := exponent rest
    match behind, power with
    | none, none =>
      if Decimal.digitLimit < whole.length then .error (.tooManyDigits whole.length)
      else
        let n : Int := Text.ofDigits whole
        .ok (.int (if negative then -n else n), rest)
    | _, _ =>
      let ds := behind.getD []
      let e := power.getD 0 - ds.length
      .ok (.float (Decimal.toFloat negative (Text.ofDigits (whole ++ ds)) e), rest)

/-! ## Values -/

/-- What follows a word, if the text starts with it. -/
def word? : List Char → List Char → Option (List Char)
  | [], cs => some cs
  | _ :: _, [] => none
  | w :: ws, c :: cs => if w == c then word? ws cs else none

/-- The values that are words. -/
def words : List (String × Json) :=
  [("null", .null), ("true", .bool true), ("false", .bool false), ("NaN", .float (0.0 / 0.0)),
    ("Infinity", .float (1.0 / 0.0)), ("-Infinity", .float (-1.0 / 0.0))]

/-- A word or a number. -/
def readAtom (cs : List Char) : Except Error (Json × List Char) :=
  match words.findSome? fun (w, j) => (word? w.toList cs).map ((j, ·)) with
  | some found => .ok found
  | none =>
    match cs with
    | '-' :: rest => readNumber true rest
    | _ => readNumber false cs

mutual

/-- A value at the start of the text, and what follows it. Each step goes one character further,
so the length of the text is enough fuel. -/
def readValue : Nat → List Char → Except Error (Json × List Char)
  | 0, _ => .error .malformedJson
  | fuel + 1, cs =>
    match cs with
    | '"' :: rest => do
      let (s, rest) ← readText rest
      return (.str s, rest)
    | '[' :: rest =>
      match skipBlank rest with
      | ']' :: rest => .ok (.arr [], rest)
      | rest => do
        let (xs, rest) ← readItems fuel rest
        return (.arr xs, rest)
    | '{' :: rest =>
      match skipBlank rest with
      | '}' :: rest => .ok (.obj [], rest)
      | rest => do
        let (fs, rest) ← readFields fuel rest
        return (.obj (Table.ofPairs fs), rest)
    | _ => readAtom cs

/-- The items of a list up to its closing bracket. -/
def readItems : Nat → List Char → Except Error (List Json × List Char)
  | 0, _ => .error .malformedJson
  | fuel + 1, cs => do
    let (x, rest) ← readValue fuel cs
    match skipBlank rest with
    | ']' :: rest => return ([x], rest)
    | ',' :: rest =>
      let (xs, rest) ← readItems fuel (skipBlank rest)
      return (x :: xs, rest)
    | _ => throw .malformedJson

/-- The fields of a record up to its closing brace. -/
def readFields : Nat → List Char → Except Error (List (String × Json) × List Char)
  | 0, _ => .error .malformedJson
  | fuel + 1, cs =>
    match cs with
    | '"' :: rest => do
      let (key, rest) ← readText rest
      match skipBlank rest with
      | ':' :: rest =>
        let (x, rest) ← readValue fuel (skipBlank rest)
        match skipBlank rest with
        | '}' :: rest => return ([(key, x)], rest)
        | ',' :: rest =>
          let (fs, rest) ← readFields fuel (skipBlank rest)
          return ((key, x) :: fs, rest)
        | _ => throw .malformedJson
      | _ => throw .malformedJson
    | _ => .error .malformedJson

end

/-- Reads a JSON text that holds one value and nothing else. -/
def parse (s : String) : Except Error Json := do
  let cs := skipBlank s.toList
  let (j, rest) ← readValue (cs.length + 1) cs
  if (skipBlank rest).isEmpty then return j else throw .malformedJson

end Nabla.Json
