import Nabla.Expr.Basic

/-!
# Expressions as text

Infix with a pair of parentheses around every binary operation. A constant that is a whole number is
written without a point, and without a sign if it is zero. An odd name is shown like plain data.
-/

namespace Nabla

/-- The text of a constant. -/
def constText (x : Float) : String :=
  match whole? x with
  | some n => intText n
  | none => Decimal.text x

namespace Expr

mutual

def text : Expr → String
  | const x => constText x
  | var name => name
  | neg e => "-" ++ text e
  | binary op a b => "(" ++ text a ++ " " ++ op.symbol ++ " " ++ text b ++ ")"
  | call f a => f.name ++ "(" ++ text a ++ ")"
  | powCall a b => Callee.powName ++ "(" ++ text a ++ ", " ++ text b ++ ")"
  | unknown name a rest => name ++ "(" ++ commaList (text a :: textAll rest) ++ ")"
  | blank => ""
  | pair a b => "(" ++ text a ++ "  " ++ text b ++ ")"
  | datum j => j.text
  | oddVar n => n.text

def textAll : List Expr → List String
  | [] => []
  | e :: es => text e :: textAll es

end

/-- The record of a call. -/
def quotedCall (name : String) (args : List String) : String :=
  "Func(name=" ++ name ++ ", args=" ++ tupleText args ++ ")"

/-- The record of a node with two operands. -/
def quotedPair (kind left right : String) : String :=
  kind ++ "(left=" ++ left ++ ", right=" ++ right ++ ")"

mutual

/-- The text of an expression inside a list: a record of its nodes. -/
def quoted : Expr → String
  | const x => "Const(value=" ++ Decimal.text x ++ ")"
  | var name => "Var(name=" ++ Text.quote name ++ ")"
  | neg e => "Neg(operand=" ++ quoted e ++ ")"
  | binary op a b => quotedPair op.kind (quoted a) (quoted b)
  | call f a => quotedCall f.name [quoted a]
  | powCall a b => quotedCall Callee.powName [quoted a, quoted b]
  | unknown name a rest => quotedCall (Text.quote name) (quoted a :: quotedAll rest)
  | blank => ""
  | pair a b => quotedPair (pair a b).kind (quoted a) (quoted b)
  | datum j => j.quoted
  | oddVar n => "Var(name=" ++ n.value.quoted ++ ")"

def quotedAll : List Expr → List String
  | [] => []
  | e :: es => quoted e :: quotedAll es

end

/-- A name that is no variable of the expressions: it is longer than all of them. -/
def unusedName (es : List Expr) : String := String.join (es.flatMap variableNames) ++ "_"

end Expr

end Nabla
