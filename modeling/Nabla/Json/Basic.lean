import Nabla.Table

/-!
# Plain data

The values of JSON, with whole numbers and doubles kept apart and the fields of a record in the order
in which they were written.
-/

namespace Nabla

inductive Json where
  | null
  | bool (b : Bool)
  | int (n : Int)
  | float (x : Float)
  | str (s : String)
  | arr (items : List Json)
  | obj (fields : List (String × Json))
deriving Inhabited

namespace Json

/-- The word by which messages name a kind of data. -/
def kind : Json → String
  | null => "NoneType"
  | bool _ => "bool"
  | int _ => "int"
  | float _ => "float"
  | str _ => "str"
  | arr _ => "list"
  | obj _ => "dict"

/-- Whether a value is a text. -/
def isText : Json → Bool
  | str _ => true
  | _ => false

/-- Whether a value counts as yes: nothing, zero and whatever is empty do not. -/
def truthy : Json → Bool
  | null => false
  | bool b => b
  | int n => n != 0
  | float x => x != 0
  | str s => s != ""
  | arr items => !items.isEmpty
  | obj fields => !fields.isEmpty

end Json

end Nabla
