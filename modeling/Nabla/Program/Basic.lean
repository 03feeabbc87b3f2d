import Nabla.NdArray.Interp
import Nabla.Program.Code

/-!
# Programs

A program fills one place of its result per equation, in their order.
-/

namespace Nabla

structure Program where
  lines : List Code
deriving Inhabited

namespace Program

/-- The line that fills place `i`. -/
def lineText (i : Nat) (c : Code) : String :=
  "    out[" ++ natText i ++ "] = " ++ c.text ++ "\n"

/-- The text of a program. -/
def text (p : Program) : String :=
  "def _f(values):\n    out = np.zeros(" ++ natText p.lines.length ++ ")\n" ++
    String.join (p.lines.mapIdx lineText) ++ "    return out"

/-- How deep brackets may be nested. -/
def maxDepth : Nat := 200

/-- A program, refused at its first line with brackets that are nested too deep, or else at its first
line that cannot be read as code. Two lines stand before the lines of the equations. -/
def check (p : Program) : Except Error Program :=
  match p.lines.findIdx? fun c => maxDepth < c.depth with
  | some i => .error (.tooNested (i + 3))
  | none => match p.lines.findIdx? fun c => !c.readable with
    | some i => .error (.badCode (i + 3))
    | none => .ok p

/-- Makes the code of each equation in turn; the first that fails counts. -/
def compileWith {α : Type u} (emit : α → Except Error Code) (eqs : List α) :
    Except Error Program := do
  check ⟨← eqs.mapM emit⟩

def compile (eqs : List Expr) (parameters : List String) : Except Error Program :=
  compileWith (Expr.emit parameters) eqs

/-- The values of all lines. -/
def runWith {β : Type u} (I : Interp β) (p : Program) (values : List β) : Except Error (List β) :=
  p.lines.mapM (Code.run I values)

/-- Runs a program on an array of numbers. -/
def runIn (A : Arithmetic Float) (p : Program) (values : List Float) : Except Error (List Float) :=
  p.runWith (.scalar A id) values

def run (p : Program) (values : List Float) : Except Error (List Float) := p.runIn .double values

/-- Runs a program on an array whose entries are arrays. Each place of the result holds one number. -/
def runRows (A : Arithmetic Float) (p : Program) (rows : List (NdArray Float)) :
    Except Error (List Float) :=
  p.lines.mapM fun c => do
    match (← c.run (NdArray.interp A id) rows).number? with
    | some x => return x
    | none => throw .arrayEntry

end Program

end Nabla
