import Nabla.Proofs.HigherDerivatives
import Nabla.Program.Code

/-!
# The two spellings of a power

A power is written as an operator or as a call, and evaluation, differentiation and code generation
treat the two in branches of their own. Writing every call as the operator changes nothing that they
say: values, failures and code are the same, and the derivative is the same but for its own calls.
-/

namespace Nabla.Expr

mutual

/-- The tree with every call of the power written as the operator. -/
def unpow : Expr → Expr
  | const x => const x
  | var name => var name
  | neg a => neg (unpow a)
  | binary op a b => binary op (unpow a) (unpow b)
  | call f a => call f (unpow a)
  | powCall a b => power (unpow a) (unpow b)
  | unknown name a rest => unknown name (unpow a) (unpowAll rest)
  | blank => blank
  | pair a b => pair (unpow a) (unpow b)
  | datum j => datum j
  | oddVar n => oddVar n

def unpowAll : List Expr → List Expr
  | [] => []
  | e :: es => unpow e :: unpowAll es

end

theorem unpowAll_eq_map (es : List Expr) : unpowAll es = es.map unpow := by
  induction es with
  | nil => rfl
  | cons e es ih => rw [unpowAll, ih, List.map_cons]

theorem children_unpow (e : Expr) : e.unpow.children = e.children.map unpow := by
  cases e with
  | unknown n a rest => rw [unpow, children, children, unpowAll_eq_map, List.map_cons]
  | _ => rfl

theorem not_occurs_powCall_unpow (a b e : Expr) : ¬ (powCall a b).Occurs e.unpow := by
  induction e using induction_on_children with
  | step e ih =>
    rw [occurs_iff, children_unpow]
    rintro (h | ⟨c, hc, h⟩)
    · cases e <;> cases h
    · obtain ⟨d, hd, rfl⟩ := List.mem_map.mp hc
      exact ih d hd h

theorem WellFormed.unpow {e : Expr} (h : e.WellFormed) : e.unpow.WellFormed := by
  induction e with
  | const | var => trivial
  | neg a iha | call f a iha => exact iha h
  | binary op a b iha ihb | powCall a b iha ihb => exact ⟨iha h.1, ihb h.2⟩
  | unknown n a rest iha ihrest =>
    obtain ⟨hn, ha, hrest⟩ := h
    refine ⟨hn, iha ha, ?_⟩
    rw [unpowAll_eq_map, allWellFormed_iff]
    intro d hd
    obtain ⟨c, hc, rfl⟩ := List.mem_map.mp hd
    exact ihrest c hc (allWellFormed_iff.mp hrest c hc)
  | blank | pair | datum | oddVar => exact h.elim

/-! ## Evaluation -/

theorem evalWith_unpow {β : Type u} (I : Interp β) (ρ : String → Option β) (e : Expr) :
    e.unpow.evalWith I ρ = e.evalWith I ρ := by
  induction e with
  | const | var | unknown | blank | pair | datum | oddVar => rfl
  | neg a iha | call f a iha => rw [unpow, evalWith, evalWith, iha]
  | binary op a b iha ihb => rw [unpow, evalWith, evalWith, iha, ihb]
  | powCall a b iha ihb => rw [unpow, power, evalWith, evalWith, iha, ihb]

/-! ## Differentiation -/

theorem unpow_outer (f : Fn) (u : Expr) : (outer f u).unpow = outer f u.unpow := by
  cases f <;> rfl

theorem unpow_powerRule (f g f' g' : Expr) :
    (powerRule f g f' g').unpow = powerRule f.unpow g.unpow f'.unpow g'.unpow := rfl

theorem deriv_unpow (x : String) (e : Expr) : deriv x e.unpow = (deriv x e).unpow := by
  induction e with
  | const | blank | pair | datum | oddVar => rfl
  | var y =>
    unfold unpow deriv
    split_ifs <;> rfl
  | neg a iha => simp [deriv, unpow, iha]
  | binary op a b iha ihb =>
    cases op with
    | add | sub | mul | div => simp [deriv, unpow, add, sub, mul, div, power, two, iha, ihb]
    | pow => rw [unpow, deriv, deriv, unpow_powerRule, iha, ihb]
  | call f a iha =>
    rw [unpow, deriv, deriv, iha, ← unpow_outer]
    rfl
  | powCall a b iha ihb => rw [unpow, power, deriv, deriv, unpow_powerRule, iha, ihb]
  | unknown n a rest iha => rw [unpow, deriv, deriv, iha]

theorem iterate_deriv_unpow (x : String) (n : Nat) (e : Expr) :
    (deriv x)^[n] e.unpow = ((deriv x)^[n] e).unpow :=
  Function.Commute.iterate_left (deriv_unpow x) n e

theorem differentiateTimes_unpow {e : Expr} (he : e.WellFormed) (x : String) (n : Nat) :
    ∃ d, differentiateTimes x n e = .ok d ∧ differentiateTimes x n e.unpow = .ok d.unpow := by
  refine ⟨(deriv x)^[n] e, differentiateTimes_of_finished he.obstacle_eq_none n, ?_⟩
  rw [differentiateTimes_of_finished he.unpow.obstacle_eq_none, iterate_deriv_unpow]

/-! ## Generated code -/

theorem emit_unpow (ps : List String) (e : Expr) : e.unpow.emit ps = e.emit ps := by
  induction e with
  | const | var | unknown | blank | datum | oddVar => rfl
  | neg a iha | call f a iha => rw [unpow, emit, emit, iha]
  | binary op a b iha ihb | pair a b iha ihb => rw [unpow, emit, emit, iha, ihb]
  | powCall a b iha ihb => rw [unpow, power, emit, emit, iha, ihb]

/-- The text of the code where `symbol` says what stands for a variable. -/
def sourceText (symbol : String → Option String) : Expr → Except Error String
  | const x => .ok (Code.ofFloat x).text
  | var name => match symbol name with
    | some s => .ok s
    | none => .error (.notParameter name)
  | neg a => do return "(-" ++ (← sourceText symbol a) ++ ")"
  | binary op a b => do
    let x ← sourceText symbol a
    let y ← sourceText symbol b
    return Code.binaryText op x y
  | call f a => do return Code.routine f ++ "(" ++ (← sourceText symbol a) ++ ")"
  | powCall a b => do
    let x ← sourceText symbol a
    let y ← sourceText symbol b
    return "np.power(" ++ commaList [x, y] ++ ")"
  | unknown name _ _ => .error (.unknownFunction name)
  | blank => .error (.unsupported .emit blank.kind)
  | pair a b => do
    let x ← sourceText symbol a
    let y ← sourceText symbol b
    return "(" ++ x ++ "  " ++ y ++ ")"
  | datum j => .error (.unsupported .emit j.kind)
  | oddVar n => .error (n.lookupError (.notParameter n.text))

theorem powerText_eq (x y : String) :
    "np.power(" ++ commaList [x, y] ++ ")" = Code.binaryText .pow x y := by
  show "np.power(" ++ (x ++ ", " ++ y) ++ ")" = "np.power(" ++ x ++ ", " ++ y ++ ")"
  simp only [String.append_assoc]

theorem text_emit (ps : List String) (e : Expr) :
    (e.emit ps).map Code.text =
      e.sourceText fun name => (lastIndex? name ps).map fun i => (Code.slot i).text := by
  induction e with
  | const | unknown | blank | datum | oddVar => rfl
  | var name =>
    unfold emit sourceText
    cases lastIndex? name ps <;> rfl
  | neg a iha | call f a iha =>
    rw [emit, sourceText, ← iha]
    cases a.emit ps <;> rfl
  | binary op a b iha ihb | pair a b iha ihb =>
    rw [emit, sourceText, ← iha, ← ihb]
    cases a.emit ps <;> cases b.emit ps <;> rfl
  | powCall a b iha ihb =>
    simp only [emit, sourceText, powerText_eq, ← iha, ← ihb]
    cases a.emit ps <;> cases b.emit ps <;> rfl

theorem sourceText_unpow (symbol : String → Option String) (e : Expr) :
    e.unpow.sourceText symbol = e.sourceText symbol := by
  induction e with
  | const | var | unknown | blank | datum | oddVar => rfl
  | neg a iha | call f a iha => rw [unpow, sourceText, sourceText, iha]
  | binary op a b iha ihb | pair a b iha ihb => rw [unpow, sourceText, sourceText, iha, ihb]
  | powCall a b iha ihb =>
    simp only [unpow, power, sourceText, powerText_eq, iha, ihb]

/-! ## The two spellings -/

/-- Writing all calls of the power as operators keeps the outcome of evaluation, commutes with
differentiation of every order, and keeps the code or the reason why there is none, whatever stands
for the variables. -/
theorem power_spellings_agree {e : Expr} (he : e.WellFormed) :
    (∀ a b, ¬ (powCall a b).Occurs e.unpow) ∧
      (∀ bindings, e.unpow.eval bindings = e.eval bindings) ∧
      (∀ x n, ∃ d, differentiateTimes x n e = .ok d ∧ differentiateTimes x n e.unpow = .ok d.unpow) ∧
      (∀ symbol, e.unpow.sourceText symbol = e.sourceText symbol) ∧
      ∀ ps, e.unpow.emit ps = e.emit ps ∧
        (e.emit ps).map Code.text =
          e.sourceText fun name => (lastIndex? name ps).map fun i => (Code.slot i).text := by
  refine ⟨fun a b => not_occurs_powCall_unpow a b e, fun bindings => evalWith_unpow _ _ e, ?_, ?_, ?_⟩
  · exact fun x n => differentiateTimes_unpow he x n
  · exact fun symbol => sourceText_unpow symbol e
  · exact fun ps => ⟨emit_unpow ps e, text_emit ps e⟩

/-- A call of the power below an operator, with another call in its exponent and a third one below an
unknown function. -/
theorem power_spellings_agree_nested :
    let e := add (powCall (var "x") (power two (powCall (var "y") two)))
      (unknown "f" one [powCall two (var "x")])
    let e' := add (power (var "x") (power two (power (var "y") two)))
      (unknown "f" one [power two (var "x")])
    e.WellFormed ∧ (∀ bindings, e'.eval bindings = e.eval bindings) ∧
      (∃ d, differentiateTimes "x" 3 e = .ok d ∧ differentiateTimes "x" 3 e' = .ok d.unpow) ∧
      e'.emit ["x", "y"] = e.emit ["x", "y"] := by
  intro e e'
  have hf : Callee.ofName "f" = .unknown "f" := by decide
  have he : e.WellFormed :=
    ⟨⟨trivial, trivial, trivial, trivial⟩, hf, trivial, ⟨trivial, trivial⟩, trivial⟩
  obtain ⟨-, heval, hderiv, -, hemit⟩ := power_spellings_agree he
  exact ⟨he, heval, hderiv "x" 3, (hemit ["x", "y"]).1⟩

end Nabla.Expr
