import Nabla.Function
import Nabla.Json.Convert
import Nabla.Json.Equality

/-!
# Expression trees

Constants, variables, negation, binary operations and calls. A known function has exactly its number
of arguments and an unknown one at least one, by the shape of the type. Three more nodes stand for
unfinished expressions: `blank`, a node of no kind, `pair`, two operands without an operator, and
`datum`, plain data in the place of an operand. They can be held and written down as far as that makes
sense, and every task on them fails. A variable may also have a name that is no text. It counts as a
constant, nothing is bound to it, and if the name is a list or a record it cannot even be looked up.
-/

namespace Nabla

/-- A name that is no text. -/
structure OddName where
  value : Json
  odd : value.isText = false

namespace OddName

def text (n : OddName) : String := n.value.text

/-- Fails if nothing can be looked up by the name. -/
def checkKey (n : OddName) : Except Error Unit := n.value.checkKey

/-- What looking the name up fails with, where `absent` is for a name that is not there. -/
def lookupError (n : OddName) (absent : Error) : Error :=
  match n.checkKey with
  | .ok _ => absent
  | .error err => err

end OddName

inductive Expr where
  | const (value : Float)
  | var (name : String)
  | neg (operand : Expr)
  | binary (op : BinOp) (left right : Expr)
  | call (f : Fn) (arg : Expr)
  /-- The call `pow(base, exponent)`, as opposed to the operator. -/
  | powCall (base exponent : Expr)
  | unknown (name : String) (first : Expr) (rest : List Expr)
  | blank
  | pair (left right : Expr)
  | datum (j : Json)
  | oddVar (name : OddName)
deriving Inhabited

namespace Expr

/-- The variable of any name. -/
def ofName (name : Json) : Expr :=
  if h : name.isText = false then oddVar ⟨name, h⟩ else var name.text

/-- The call of a function by its name. -/
def apply (name : String) (args : List Expr) : Except Error Expr :=
  match Callee.ofName name, args with
  | .unary f, [a] => .ok (call f a)
  | .pow, [a, b] => .ok (powCall a b)
  | .unknown n, a :: rest => .ok (unknown n a rest)
  | .unary f, _ => .error (.arity f.name "1" args.length)
  | .pow, _ => .error (.arity Callee.powName "2" args.length)
  | .unknown n, [] => .error (.arity n "at least 1" 0)

/-- The word by which messages name a kind of node. -/
def kind : Expr → String
  | const _ => "Const"
  | var _ | oddVar _ => "Var"
  | neg _ => "Neg"
  | binary op _ _ => op.kind
  | call _ _ | powCall _ _ | unknown _ _ _ => "Func"
  | blank => "Expr"
  | pair _ _ => "BinOp"
  | datum j => j.kind

/-- The direct parts of a node, from left to right. -/
def children : Expr → List Expr
  | const _ | var _ | blank | datum _ | oddVar _ => []
  | neg e | call _ e => [e]
  | binary _ a b | powCall a b | pair a b => [a, b]
  | unknown _ a rest => a :: rest

/-- What a call calls and with what. -/
def call? : Expr → Option (Callee × List Expr)
  | call f a => some (.unary f, [a])
  | powCall a b => some (.pow, [a, b])
  | unknown n a rest => some (.unknown n, a :: rest)
  | _ => none

mutual

/-- The number of nodes. -/
def size : Expr → Nat
  | const _ | var _ | blank | datum _ | oddVar _ => 1
  | neg e | call _ e => size e + 1
  | binary _ a b | powCall a b | pair a b => size a + size b + 1
  | unknown _ a rest => size a + sizeAll rest + 1

def sizeAll : List Expr → Nat
  | [] => 0
  | e :: es => size e + sizeAll es

end

/-! ## Equality

Constants are equal when they are equal as numbers: the two zeros are, and the undefined value is not
even equal to itself. -/

mutual

def same : Expr → Expr → Bool
  | const a, const b => a == b
  | var x, var y => x == y
  | neg a, neg b => same a b
  | binary op a b, binary op' a' b' => op == op' && same a a' && same b b'
  | call f a, call f' a' => f == f' && same a a'
  | powCall a b, powCall a' b' => same a a' && same b b'
  | unknown n a rest, unknown n' a' rest' => n == n' && same a a' && sameAll rest rest'
  | pair a b, pair a' b' => same a a' && same b b'
  | datum j, datum j' => j.same j'
  | oddVar n, oddVar n' => n.value.same n'.value
  | _, _ => false

def sameAll : List Expr → List Expr → Bool
  | [], [] => true
  | a :: as, b :: bs => same a b && sameAll as bs
  | _, _ => false

end

instance : BEq Expr := ⟨same⟩

/-! ## Variables -/

/-- Adds a name at the end unless it is there. -/
def addName (seen : List String) (name : String) : List String :=
  if name ∈ seen then seen else seen ++ [name]

mutual

/-- Adds the variables of an expression in order of their first occurrence. -/
def collect (seen : List String) : Expr → List String
  | var x => addName seen x
  | const _ | blank | datum _ | oddVar _ => seen
  | neg e | call _ e => collect seen e
  | binary _ a b | powCall a b | pair a b => collect (collect seen a) b
  | unknown _ a rest => collectAll (collect seen a) rest

def collectAll (seen : List String) : List Expr → List String
  | [] => seen
  | e :: es => collectAll (collect seen e) es

end

/-- The variables of an expression, each once, in order of their first occurrence. -/
def variableNames (e : Expr) : List String := collect [] e

/-- Adds a name of any kind at the end unless an equal one is there. -/
def addAnyName (seen : List Json) (name : Json) : List Json :=
  if seen.any name.same then seen else seen ++ [name]

mutual

/-- Lists the names of the variables after those seen before. Plain data among the nodes has no parts
to look at. -/
def listNames (seen : List Json) : Expr → Except Error (List Json)
  | var x => .ok (addAnyName seen (.str x))
  | const _ | blank => .ok seen
  | neg e | call _ e => listNames seen e
  | binary _ a b | powCall a b | pair a b => do listNames (← listNames seen a) b
  | unknown _ a rest => do listAllNames (← listNames seen a) rest
  | datum j => .error (.noMember j.kind "children")
  | oddVar n => do
    n.checkKey
    return addAnyName seen n.value

def listAllNames (seen : List Json) : List Expr → Except Error (List Json)
  | [] => .ok seen
  | e :: es => do listAllNames (← listNames seen e) es

end

/-- The variables of an expression as texts, refused where one cannot be looked up or plain data is
among the nodes. -/
def listVariables (e : Expr) : Except Error (List String) := do
  return (← listNames [] e).map Json.text

/-! ## Plain data in a tree -/

mutual

/-- The plain data in the places of operands and of names, from left to right. -/
def data : Expr → List Json
  | datum j => [j]
  | oddVar n => [n.value]
  | const _ | var _ | blank => []
  | neg e | call _ e => data e
  | binary _ a b | powCall a b | pair a b => data a ++ data b
  | unknown _ a rest => data a ++ dataAll rest

def dataAll : List Expr → List Json
  | [] => []
  | e :: es => data e ++ dataAll es

end

/-! ## Finished expressions -/

mutual

/-- No node is unfinished, every name is a text, and no unknown function has the name of a known
one. -/
def WellFormed : Expr → Prop
  | const _ | var _ => True
  | neg e | call _ e => WellFormed e
  | binary _ a b | powCall a b => WellFormed a ∧ WellFormed b
  | unknown n a rest => Callee.ofName n = .unknown n ∧ WellFormed a ∧ AllWellFormed rest
  | blank | pair _ _ | datum _ | oddVar _ => False

def AllWellFormed : List Expr → Prop
  | [] => True
  | e :: es => WellFormed e ∧ AllWellFormed es

end

end Expr

end Nabla
