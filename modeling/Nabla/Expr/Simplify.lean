import Nabla.Arithmetic
import Nabla.Expr.Derivative
import Nabla.Expr.Text

/-!
# Simplification

One pass from the leaves to the root: the parts of a node are simplified first, then one rule is
applied to the node. A rule folds constants or drops a neutral or absorbing operand. A division by
zero and zero to the power of zero are left alone.

The rules are functions on simplified parts, so the pass is a plain recursion. The two rules that take
a logarithm and an exponential away uncover an expression that has been simplified already.
-/

namespace Nabla.Expr

def isConst : Expr → Bool
  | const _ => true
  | _ => false

def isZero : Expr → Bool
  | const x => x == 0
  | _ => false

def isOne : Expr → Bool
  | const x => x == 1
  | _ => false

/-! ## The rules, on simplified parts -/

section Rules

variable (A : Arithmetic Float)

def simplifyNeg : Expr → Expr
  | const x => const (A.neg x)
  | e => neg e

def simplifyAdd : Expr → Expr → Expr
  | const x, const y => const (A.combine .add x y)
  | const x, b => if x == 0 then b else add (const x) b
  | a, const y => if y == 0 then a else add a (const y)
  | a, b => add a b

def simplifySub : Expr → Expr → Expr
  | const x, const y => const (A.combine .sub x y)
  | const x, b => if x == 0 then neg b else sub (const x) b
  | a, const y => if y == 0 then a else sub a (const y)
  | a, b => sub a b

def simplifyMul : Expr → Expr → Expr
  | const x, const y => const (A.combine .mul x y)
  | const x, b => if x == 0 then zero else if x == 1 then b else mul (const x) b
  | a, const y => if y == 0 then zero else if y == 1 then a else mul a (const y)
  | a, b => mul a b

/-- Folds two constants; other operands are put together again. -/
def foldOr (op : BinOp) (rebuild : Expr → Expr → Expr) : Expr → Expr → Expr
  | const x, const y => const (A.combine op x y)
  | a, b => rebuild a b

def simplifyDiv (a b : Expr) : Expr :=
  if isZero b then div a b
  else if a == b then one
  else if isZero a then zero
  else if isOne b then a
  else foldOr A .div div a b

/-- Both spellings of a power; `rebuild` is the one to keep. -/
def simplifyPow (rebuild : Expr → Expr → Expr) (a b : Expr) : Expr :=
  if isZero a then if isZero b then rebuild a b else zero
  else if isOne a || isZero b then one
  else if isOne b then a
  else foldOr A .pow rebuild a b

def simplifyCall : Fn → Expr → Expr
  | f, const x => const (A.call f x)
  | .log, call .exp u => u
  | .exp, call .log u => u
  | f, a => call f a

def simplifyBinary : BinOp → Expr → Expr → Expr
  | .add => simplifyAdd A
  | .sub => simplifySub A
  | .mul => simplifyMul A
  | .div => simplifyDiv A
  | .pow => simplifyPow A power

mutual

/-- One pass. Unfinished nodes are left as they are. -/
def simplifyWith : Expr → Expr
  | const x => const x
  | var name => var name
  | neg e => simplifyNeg A (simplifyWith e)
  | binary op a b => simplifyBinary A op (simplifyWith a) (simplifyWith b)
  | call f a => simplifyCall A f (simplifyWith a)
  | powCall a b => simplifyPow A powCall (simplifyWith a) (simplifyWith b)
  | unknown name a rest => unknown name (simplifyWith a) (simplifyAllWith rest)
  | blank => blank
  | pair a b => pair a b
  | datum j => datum j
  | oddVar n => oddVar n

def simplifyAllWith : List Expr → List Expr
  | [] => []
  | e :: es => simplifyWith e :: simplifyAllWith es

end

end Rules

/-! ## On doubles, with refusal -/

mutual

/-- The first unfinished node from left to right. -/
def simplifyObstacle : Expr → Option Expr
  | const _ | var _ | oddVar _ => none
  | neg e | call _ e => simplifyObstacle e
  | binary _ a b | powCall a b => simplifyObstacle a <|> simplifyObstacle b
  | unknown _ a rest => simplifyObstacle a <|> anySimplifyObstacle rest
  | blank => some blank
  | pair a b => some (pair a b)
  | datum j => some (datum j)

def anySimplifyObstacle : List Expr → Option Expr
  | [] => none
  | e :: es => simplifyObstacle e <|> anySimplifyObstacle es

end

/-- One pass with double arithmetic, refused where an unfinished node is in the way. -/
def simplify (e : Expr) : Except Error Expr :=
  match e.simplifyObstacle with
  | some node => .error (.unsupported .simplify node.kind)
  | none => .ok (simplifyWith .double e)

/-- Passes until the text stays the same, at most as many as the fuel allows. The tree of the last
changed text is kept. -/
def simplifyFull : Nat → Expr → Except Error Expr
  | 0, e => .ok e
  | passes + 1, e => do
    let next ← simplify e
    if next.text = e.text then return e else simplifyFull passes next

end Nabla.Expr
