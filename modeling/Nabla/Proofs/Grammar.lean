import Mathlib.Tactic.Common
import Nabla.Json.Reader
import Nabla.Program.Code

/-!
# The grammar of generated code

A text is cut into lexemes, each as long as it can be, and the lexemes are read as a sum of products of
factors: operators are grouped from the left, a minus binds tighter than they do, and a factor without
a minus is a literal, a named number, a place of `values`, a call or something in brackets. Nothing in
the rules looks ahead. Still a list of lexemes can be read in one way only.
-/

namespace Nabla

/-- What a text is read as. Brackets are kept. -/
inductive Phrase where
  | literal (x : Float)
  | nan
  | infinity
  /-- `values[i]` -/
  | slot (i : Nat)
  | minus (operand : Phrase)
  | operation (op : BinOp) (left right : Phrase)
  | call (f : Fn) (arg : Phrase)
  | bracketed (inner : Phrase)

namespace Phrase

/-- The value of what was read at the given array. -/
def run {β : Type u} (I : Interp β) (values : List β) : Phrase → Except Error β
  | literal x => .ok (I.const x)
  | nan => .ok (I.const (0.0 / 0.0))
  | infinity => .ok (I.const (1.0 / 0.0))
  | slot i => match values[i]? with
    | some v => .ok v
    | none => .error (.outOfBounds i values.length)
  | minus a => do return I.neg (← run I values a)
  | operation op a b => do
    let x ← run I values a
    let y ← run I values b
    I.combine op x y
  | call f a => do return I.call f (← run I values a)
  | bracketed a => run I values a

end Phrase

namespace Grammar

/-! ## Lexemes -/

def isBlank (c : Char) : Bool := c == ' ' || c == '\t'

def isWordChar (c : Char) : Bool := c.isAlphanum || c == '_'

/-- Whether the character goes on with a lexeme. Numbers go on with a point, and with a sign right
behind the mark of an exponent. -/
def joins (begun : List Char) (c : Char) : Bool :=
  match begun with
  | [] => false
  | first :: _ =>
    if first.isDigit then
      isWordChar c || c == '.' || ((c == '+' || c == '-') && (begun.getLast? == some 'e'))
    else if isWordChar first then isWordChar c
    else begun == ['*'] && c == '*'

/-- A lexeme that is over, unless it is a blank. -/
def complete (begun : List Char) : List String :=
  if begun.all isBlank then [] else [String.ofList begun]

/-- The lexemes of a text of which the start of the first one has been read already. -/
def lexemesFrom (begun : List Char) : List Char → List String
  | [] => complete begun
  | c :: cs =>
    if joins begun c then lexemesFrom (begun ++ [c]) cs else complete begun ++ lexemesFrom [c] cs

def lexemes (cs : List Char) : List String := lexemesFrom [] cs

/-! ## Rules -/

/-- What a name of the library of array routines stands for. -/
inductive Routine where
  | number (t : Phrase)
  | unary (f : Fn)
  | pair (op : BinOp)

def library : String → Option Routine
  | "nan" => some (.number .nan)
  | "inf" => some (.number .infinity)
  | "log" => some (.unary .log)
  | "exp" => some (.unary .exp)
  | "abs" => some (.unary .abs)
  | "sqrt" => some (.unary .sqrt)
  | "sin" => some (.unary .sin)
  | "cos" => some (.unary .cos)
  | "tan" => some (.unary .tan)
  | "arcsin" => some (.unary .asin)
  | "arccos" => some (.unary .acos)
  | "arctan" => some (.unary .atan)
  | "divide" => some (.pair .div)
  | "power" => some (.pair .pow)
  | _ => none

/-- The parts of a text that have rules. The rest of a sum or product is what may follow its first
operands, which have been read already. -/
inductive Part where
  | sum
  | sumRest (left : Phrase)
  | product
  | productRest (left : Phrase)
  | factor

inductive Derives : Part → List String → Phrase → Prop
  | sum {ts us t u} : Derives .product ts t → Derives (.sumRest t) us u → Derives .sum (ts ++ us) u
  | sumEnd t : Derives (.sumRest t) [] t
  | sumMore {op t ts us u v} : op = .add ∨ op = .sub → Derives .product ts u →
    Derives (.sumRest (.operation op t u)) us v → Derives (.sumRest t) (op.symbol :: (ts ++ us)) v
  | product {ts us t u} : Derives .factor ts t → Derives (.productRest t) us u →
    Derives .product (ts ++ us) u
  | productEnd t : Derives (.productRest t) [] t
  | productMore {t ts us u v} : Derives .factor ts u →
    Derives (.productRest (.operation .mul t u)) us v → Derives (.productRest t) ("*" :: (ts ++ us)) v
  | minus {ts t} : Derives .factor ts t → Derives .factor ("-" :: ts) (.minus t)
  | literal {l x} : Json.readNumber false l.toList = .ok (.float x, []) →
    Derives .factor [l] (.literal x)
  | slot {l ds} : Json.wholePart? l.toList = some (ds, []) →
    Derives .factor ["values", "[", l, "]"] (.slot (Text.ofDigits ds))
  | named {w t} : library w = some (.number t) → Derives .factor ["np", ".", w] t
  | call {w f ts t} : library w = some (.unary f) → Derives .sum ts t →
    Derives .factor ("np" :: "." :: w :: "(" :: (ts ++ [")"])) (.call f t)
  | pairCall {w op ts us t u} : library w = some (.pair op) → Derives .sum ts t →
    Derives .sum us u →
    Derives .factor ("np" :: "." :: w :: "(" :: (ts ++ "," :: (us ++ [")"]))) (.operation op t u)
  | bracketed {ts t} : Derives .sum ts t → Derives .factor ("(" :: (ts ++ [")"])) (.bracketed t)

/-! ## Only one way to read -/

/-- The lexemes that cannot stand behind a part, because they would go on with it. -/
def extenders : Part → List String
  | .sum | .sumRest _ => ["*", "+", "-"]
  | .product | .productRest _ => ["*"]
  | .factor => []

/-- What follows does not go on with the part. -/
def Stops (p : Part) (rest : List String) : Prop := ∀ t ∈ rest.head?, t ∉ extenders p

theorem stops_factor (rest : List String) : Stops .factor rest := by simp [Stops, extenders]

theorem stops_of_comma (rest : List String) : Stops .sum ("," :: rest) := by
  simp [Stops, extenders]

theorem stops_of_closing (rest : List String) : Stops .sum (")" :: rest) := by
  simp [Stops, extenders]

theorem Derives.sumRest_head {t u : Phrase} {ts rest : List String} (h : Derives (.sumRest t) ts u)
    (hrest : Stops .sum rest) : Stops .product (ts ++ rest) := by
  cases h with
  | sumEnd =>
    intro w hw hmem
    exact hrest w hw (by simp_all [extenders])
  | sumMore hop => rcases hop with rfl | rfl <;> simp [Stops, extenders, BinOp.symbol]

theorem symbol_injective {op op' : BinOp} (h : op.symbol = op'.symbol) : op = op' := by
  have hop := congrArg BinOp.ofSymbol? h
  rwa [BinOp.ofSymbol?_symbol, BinOp.ofSymbol?_symbol, Option.some_inj] at hop

theorem not_literal {w l : String} {ts us : List String} {x : Float} (heq : w :: ts = l :: us)
    (hl : Json.readNumber false l.toList = .ok (.float x, []))
    (hw : w ∈ ["-", "values", "np", "("]) : False := by
  obtain ⟨rfl, -⟩ := List.cons.inj heq
  simp only [List.mem_cons, List.not_mem_nil, or_false] at hw
  rcases hw with rfl | rfl | rfl | rfl <;> cases hl

theorem routine_eq {w w' : String} {ts us : List String} {x y : Routine} (hw : library w = some x)
    (hw' : library w' = some y) (heq : "np" :: "." :: w :: ts = "np" :: "." :: w' :: us) : x = y := by
  simp only [List.cons.injEq, true_and] at heq
  rw [heq.1] at hw
  exact Option.some.inj (hw.symm.trans hw')

/-- Two readings of the start of one list of lexemes are the same, if both stop where the part is
over. -/
theorem Derives.unique {p : Part} {ts us r s : List String} {t u : Phrase} (h : Derives p ts t)
    (h' : Derives p us u) (heq : ts ++ r = us ++ s) (hr : Stops p r) (hs : Stops p s) :
    ts = us ∧ t = u := by
  induction h generalizing us r s u with
  | sum _ h₂ ih₁ ih₂ =>
    cases h' with
    | sum h₁' h₂' =>
      rw [List.append_assoc, List.append_assoc] at heq
      obtain ⟨rfl, rfl⟩ := ih₁ h₁' heq (h₂.sumRest_head hr) (h₂'.sumRest_head hs)
      obtain ⟨rfl, rfl⟩ := ih₂ h₂' (List.append_cancel_left heq) hr hs
      exact ⟨rfl, rfl⟩
  | sumEnd t =>
    cases h' with
    | sumEnd => exact ⟨rfl, rfl⟩
    | sumMore hop =>
      subst heq
      rcases hop with rfl | rfl <;> simp [Stops, extenders, BinOp.symbol] at hr
  | sumMore hop _ h₂ ih₁ ih₂ =>
    cases h' with
    | sumEnd =>
      subst heq
      rcases hop with rfl | rfl <;> simp [Stops, extenders, BinOp.symbol] at hs
    | sumMore hop' h₁' h₂' =>
      simp only [List.cons_append, List.append_assoc, List.cons.injEq] at heq
      obtain ⟨hsymbol, heq⟩ := heq
      obtain rfl := symbol_injective hsymbol
      obtain ⟨rfl, rfl⟩ := ih₁ h₁' heq (h₂.sumRest_head hr) (h₂'.sumRest_head hs)
      obtain ⟨rfl, rfl⟩ := ih₂ h₂' (List.append_cancel_left heq) hr hs
      exact ⟨rfl, rfl⟩
  | product _ _ ih₁ ih₂ =>
    cases h' with
    | product h₁' h₂' =>
      rw [List.append_assoc, List.append_assoc] at heq
      obtain ⟨rfl, rfl⟩ := ih₁ h₁' heq (stops_factor _) (stops_factor _)
      obtain ⟨rfl, rfl⟩ := ih₂ h₂' (List.append_cancel_left heq) hr hs
      exact ⟨rfl, rfl⟩
  | productEnd t =>
    cases h' with
    | productEnd => exact ⟨rfl, rfl⟩
    | productMore =>
      subst heq
      simp [Stops, extenders] at hr
  | productMore _ _ ih₁ ih₂ =>
    cases h' with
    | productEnd =>
      subst heq
      simp [Stops, extenders] at hs
    | productMore h₁' h₂' =>
      simp only [List.cons_append, List.append_assoc, List.cons.injEq, true_and] at heq
      obtain ⟨rfl, rfl⟩ := ih₁ h₁' heq (stops_factor _) (stops_factor _)
      obtain ⟨rfl, rfl⟩ := ih₂ h₂' (List.append_cancel_left heq) hr hs
      exact ⟨rfl, rfl⟩
  | minus _ ih =>
    cases h' with
    | minus h₁' =>
      obtain ⟨rfl, rfl⟩ := ih h₁' (List.cons.inj heq).2 hr hs
      exact ⟨rfl, rfl⟩
    | literal hl => exact (not_literal heq hl (by simp)).elim
    | _ => simp at heq
  | literal hl =>
    cases h' with
    | literal hl' =>
      obtain ⟨rfl, -⟩ := List.cons.inj heq
      cases hl.symm.trans hl'
      exact ⟨rfl, rfl⟩
    | _ => exact (not_literal heq.symm hl (by simp)).elim
  | slot hl =>
    cases h' with
    | literal hl => exact (not_literal heq hl (by simp)).elim
    | slot hl' =>
      simp only [List.cons_append, List.cons.injEq, true_and] at heq
      obtain ⟨rfl, -⟩ := heq
      cases hl.symm.trans hl'
      exact ⟨rfl, rfl⟩
    | _ => simp at heq
  -- what stands behind a name of the library is decided by what the name stands for
  | named hw =>
    cases h' with
    | literal hl => exact (not_literal heq hl (by simp)).elim
    | named hw' =>
      simp only [List.cons_append, List.cons.injEq, true_and] at heq
      obtain ⟨rfl, -⟩ := heq
      cases hw.symm.trans hw'
      exact ⟨rfl, rfl⟩
    | call hw' | pairCall hw' => cases routine_eq hw hw' heq
    | _ => simp at heq
  | call hw _ ih =>
    cases h' with
    | literal hl => exact (not_literal heq hl (by simp)).elim
    | named hw' | pairCall hw' => cases routine_eq hw hw' heq
    | call hw' h₁' =>
      simp only [List.cons_append, List.append_assoc, List.cons.injEq, true_and] at heq
      obtain ⟨rfl, heq⟩ := heq
      cases hw.symm.trans hw'
      obtain ⟨rfl, rfl⟩ := ih h₁' heq (stops_of_closing _) (stops_of_closing _)
      exact ⟨rfl, rfl⟩
    | _ => simp at heq
  | pairCall hw _ _ ih₁ ih₂ =>
    cases h' with
    | literal hl => exact (not_literal heq hl (by simp)).elim
    | named hw' | call hw' => cases routine_eq hw hw' heq
    | pairCall hw' h₁' h₂' =>
      simp only [List.cons_append, List.append_assoc, List.cons.injEq, true_and] at heq
      obtain ⟨rfl, heq⟩ := heq
      cases hw.symm.trans hw'
      obtain ⟨rfl, rfl⟩ := ih₁ h₁' heq (stops_of_comma _) (stops_of_comma _)
      obtain ⟨-, heq⟩ := List.cons.inj (List.append_cancel_left heq)
      obtain ⟨rfl, rfl⟩ := ih₂ h₂' heq (stops_of_closing _) (stops_of_closing _)
      exact ⟨rfl, rfl⟩
    | _ => simp at heq
  | bracketed _ ih =>
    cases h' with
    | literal hl => exact (not_literal heq hl (by simp)).elim
    | bracketed h₁' =>
      simp only [List.cons_append, List.append_assoc, List.cons.injEq, true_and] at heq
      obtain ⟨rfl, rfl⟩ := ih h₁' heq (stops_of_closing _) (stops_of_closing _)
      exact ⟨rfl, rfl⟩
    | _ => simp at heq

end Grammar

end Nabla
