/-!
# Functions and operators by name

The real functions that an expression can call, and the five binary operators.
-/

namespace Nabla

/-- The functions of one argument. `log` is the natural logarithm. -/
inductive Fn where
  | log
  | exp
  | abs
  | sqrt
  | sin
  | cos
  | tan
  | asin
  | acos
  | atan
deriving DecidableEq, Repr

namespace Fn

def all : List Fn := [log, exp, abs, sqrt, sin, cos, tan, asin, acos, atan]

/-- The name in expressions. -/
def name : Fn → String
  | log => "log"
  | exp => "exp"
  | abs => "abs"
  | sqrt => "sqrt"
  | sin => "sin"
  | cos => "cos"
  | tan => "tan"
  | asin => "asin"
  | acos => "acos"
  | atan => "atan"

/-- The capitalised name, which is accepted as well. -/
def title : Fn → String
  | log => "Log"
  | exp => "Exp"
  | abs => "Abs"
  | sqrt => "Sqrt"
  | sin => "Sin"
  | cos => "Cos"
  | tan => "Tan"
  | asin => "Asin"
  | acos => "Acos"
  | atan => "Atan"

/-- The function that a text names. -/
def ofName? (s : String) : Option Fn := all.find? fun f => s = f.name ∨ s = f.title

@[simp] theorem ofName?_name (f : Fn) : ofName? f.name = some f := by cases f <;> rfl

@[simp] theorem ofName?_title (f : Fn) : ofName? f.title = some f := by cases f <;> rfl

end Fn

/-- What a call calls: a function of one argument, the power of two arguments, or something of which
only the name is known. -/
inductive Callee where
  | unary (f : Fn)
  | pow
  | unknown (name : String)
deriving DecidableEq, Repr

namespace Callee

def powName : String := "pow"

def powTitle : String := "Pow"

def ofName (s : String) : Callee :=
  match Fn.ofName? s with
  | some f => unary f
  | none => if s = powName ∨ s = powTitle then pow else unknown s

def name : Callee → String
  | unary f => f.name
  | pow => powName
  | unknown s => s

/-- A known function's capitalised name and number of arguments. -/
def known? : Callee → Option (String × Nat)
  | unary f => some (f.title, 1)
  | pow => some (powTitle, 2)
  | unknown _ => none

@[simp] theorem ofName_unary (f : Fn) : ofName f.name = unary f := by simp [ofName]

@[simp] theorem ofName_pow : ofName powName = pow := by decide

theorem ofName_name (s : String) : ofName (ofName s).name = ofName s := by
  cases h : Fn.ofName? s with
  | some f => simp [ofName, h, name]
  | none =>
    by_cases hp : s = powName ∨ s = powTitle
    · simp only [ofName, h, if_pos hp, name]; decide
    · simp only [ofName, h, if_neg hp, name]

end Callee

/-- The binary operators. -/
inductive BinOp where
  | add
  | sub
  | mul
  | div
  | pow
deriving DecidableEq, Repr

namespace BinOp

def all : List BinOp := [add, sub, mul, div, pow]

def symbol : BinOp → String
  | add => "+"
  | sub => "-"
  | mul => "*"
  | div => "/"
  | pow => "**"

def ofSymbol? (s : String) : Option BinOp := all.find? fun op => s = op.symbol

@[simp] theorem ofSymbol?_symbol (op : BinOp) : ofSymbol? op.symbol = some op := by
  cases op <;> rfl

/-- The word by which messages name a node with this operator. -/
def kind : BinOp → String
  | add => "Add"
  | sub => "Sub"
  | mul => "Mul"
  | div => "Div"
  | pow => "Power"

end BinOp

end Nabla
