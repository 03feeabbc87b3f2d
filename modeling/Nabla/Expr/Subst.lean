import Nabla.Expr.Basic

/-!
# Substitution

Variables are replaced all at once: what is put in is not looked at again. No text is the name of a
variable with an odd name, so it is never replaced.
-/

namespace Nabla.Expr

mutual

/-- Replaces the variables that `σ` maps. -/
def subst (σ : String → Option Expr) : Expr → Expr
  | const x => const x
  | var name => (σ name).getD (var name)
  | neg e => neg (subst σ e)
  | binary op a b => binary op (subst σ a) (subst σ b)
  | call f a => call f (subst σ a)
  | powCall a b => powCall (subst σ a) (subst σ b)
  | unknown name a rest => unknown name (subst σ a) (substAll σ rest)
  | blank => blank
  | pair a b => pair (subst σ a) (subst σ b)
  | datum j => datum j
  | oddVar n => oddVar n

def substAll (σ : String → Option Expr) : List Expr → List Expr
  | [] => []
  | e :: es => subst σ e :: substAll σ es

end

mutual

/-- What stops substitution first from left to right: a node that it does not know, or a variable that
cannot be looked up. -/
def substObstacle : Expr → Option Error
  | const _ | var _ => none
  | neg e | call _ e => substObstacle e
  | binary _ a b | powCall a b | pair a b => substObstacle a <|> substObstacle b
  | unknown _ a rest => substObstacle a <|> anySubstObstacle rest
  | blank => some (.unsupported .substitute blank.kind)
  | datum j => some (.unsupported .substitute j.kind)
  | oddVar n => match n.checkKey with
    | .ok _ => none
    | .error err => some err

def anySubstObstacle : List Expr → Option Error
  | [] => none
  | e :: es => substObstacle e <|> anySubstObstacle es

end

/-- Substitution, refused where something is in the way. -/
def substitute (e : Expr) (σ : String → Option Expr) : Except Error Expr :=
  match e.substObstacle with
  | some err => .error err
  | none => .ok (e.subst σ)

end Nabla.Expr
