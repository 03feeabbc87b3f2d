import Nabla.Expr.Json
import Nabla.Lambda.Basic

/-!
# Lambdas as records

The parameters may be any sequence; what is no text in it is taken as its text.
-/

namespace Nabla.Lambda

def bodyJson : Body → Except Error Json
  | .none => .ok .null
  | .scalar e => e.toJson
  | .array es => do return .arr (← Expr.toJsonAll es)

def toJson (f : Lambda) : Except Error Json := do
  return .obj [("type", .str "Lambda"), ("parameters", .arr (f.parameters.map .str)),
    ("body", ← bodyJson f.body)]

/-- Reads a lambda from a record. The type is not looked at, the parameters are read before the
body. -/
def ofJson (j : Json) : Except Error Lambda := do
  let body ← j.field "body"
  let parameters := (← (← j.field "parameters").elements).map Json.text
  match body with
  | .null => return ⟨parameters, .none⟩
  | .arr items => return ⟨parameters, .array (← Expr.inOrder (Expr.readItems items))⟩
  | _ => return ⟨parameters, .scalar (← Expr.ofJson body)⟩

end Nabla.Lambda
