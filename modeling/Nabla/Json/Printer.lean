import Nabla.Json.Text

/-!
# JSON text

Pure ASCII: every other character is escaped in UTF-16 units, a pair of them above the basic plane.
A comma or a colon is followed by one blank.
-/

namespace Nabla.Json

/-- A UTF-16 unit as an escape. -/
def escapeUnit (n : Nat) : List Char := '\\' :: 'u' :: Text.hexDigits 4 n

/-- One character inside a JSON text. -/
def escapeChar (c : Char) : List Char :=
  let n := c.toNat
  if c == '"' then ['\\', '"']
  else if c == '\\' then ['\\', '\\']
  else if c == '\n' then ['\\', 'n']
  else if c == '\r' then ['\\', 'r']
  else if c == '\t' then ['\\', 't']
  else if n == 8 then ['\\', 'b']
  else if n == 12 then ['\\', 'f']
  else if 0x20 ≤ n && n < 0x7f then [c]
  else if n < 0x10000 then escapeUnit n
  else
    let high := (n - 0x10000) / 0x400
    let low := (n - 0x10000) % 0x400
    escapeUnit (0xd800 + high) ++ escapeUnit (0xdc00 + low)

def printString (s : String) : List Char := '"' :: s.toList.flatMap escapeChar ++ ['"']

/-- A double as a JSON number, or as one of the words for the doubles that are no numbers. -/
def printFloat (x : Float) : List Char := (Decimal.textWith ⟨"NaN", "Infinity"⟩ x).toList

/-- Texts with a comma and a blank between them. -/
def joinComma : List (List Char) → List Char
  | [] => []
  | [cs] => cs
  | cs :: rest => cs ++ ',' :: ' ' :: joinComma rest

mutual

def print : Json → List Char
  | null => ['n', 'u', 'l', 'l']
  | bool true => ['t', 'r', 'u', 'e']
  | bool false => ['f', 'a', 'l', 's', 'e']
  | int n => (intText n).toList
  | float x => printFloat x
  | str s => printString s
  | arr items => '[' :: joinComma (printItems items) ++ [']']
  | obj fields => '{' :: joinComma (printFields fields) ++ ['}']

def printItems : List Json → List (List Char)
  | [] => []
  | item :: rest => print item :: printItems rest

def printFields : List (String × Json) → List (List Char)
  | [] => []
  | (key, value) :: rest => (printString key ++ ':' :: ' ' :: print value) :: printFields rest

end

/-- The JSON text of a value. -/
def render (j : Json) : String := String.ofList j.print

end Nabla.Json
