import Nabla.Decimal.Printer
import Nabla.Json.Basic
import Nabla.Text.Quoted

/-!
# Plain data as text

How a plain value shows in a message, a log or a listing of options. A text shows as it is on its
own, and quoted inside a list or a record.
-/

namespace Nabla

/-- The text of a whole number. -/
def intText (n : Int) : String :=
  String.ofList (Decimal.signed (n < 0) (Text.digitsOf n.natAbs))

def natText (n : Nat) : String := String.ofList (Text.digitsOf n)

/-- Texts in a row, with a comma and a blank between them. -/
def commaList (texts : List String) : String := ", ".intercalate texts

/-- Texts in brackets; a single one is followed by a comma. -/
def tupleText : List String → String
  | [a] => "(" ++ a ++ ",)"
  | texts => "(" ++ commaList texts ++ ")"

namespace Json

mutual

/-- The text of a value inside a list or a record. -/
def quoted : Json → String
  | null => "None"
  | bool b => if b then "True" else "False"
  | int n => intText n
  | float x => Decimal.text x
  | str s => Text.quote s
  | arr items => "[" ++ commaList (quotedItems items) ++ "]"
  | obj fields => "\x7b" ++ commaList (quotedFields fields) ++ "\x7d"

def quotedItems : List Json → List String
  | [] => []
  | item :: rest => quoted item :: quotedItems rest

def quotedFields : List (String × Json) → List String
  | [] => []
  | (key, value) :: rest => (Text.quote key ++ ": " ++ quoted value) :: quotedFields rest

end

/-- The text of a value on its own. -/
def text : Json → String
  | str s => s
  | other => other.quoted

end Json

end Nabla
