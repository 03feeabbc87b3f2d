import Nabla.Proofs.Double.Real
import Nabla.Proofs.Tree

/-!
# Trees that are equal as numbers

The same nodes and names, over constants that are the same number: the two zeros are not told apart,
and neither is the undefined value from itself.
-/

namespace Nabla.Expr

mutual

/-- Finished trees that differ in the sign of zeros at most. -/
def Alike : Expr → Expr → Prop
  | const x, const y => Double.SameNumber x y
  | var x, var y => x = y
  | neg a, neg a' => Alike a a'
  | binary op a b, binary op' a' b' => op = op' ∧ Alike a a' ∧ Alike b b'
  | call f a, call f' a' => f = f' ∧ Alike a a'
  | powCall a b, powCall a' b' => Alike a a' ∧ Alike b b'
  | unknown n a rest, unknown n' a' rest' => n = n' ∧ Alike a a' ∧ AllAlike rest rest'
  | _, _ => False

def AllAlike : List Expr → List Expr → Prop
  | [], [] => True
  | e :: es, e' :: es' => Alike e e' ∧ AllAlike es es'
  | _, _ => False

end

theorem allAlike_refl {es : List Expr} (h : ∀ e ∈ es, e.obstacle = none → Alike e e)
    (hes : anyObstacle es = none) : AllAlike es es := by
  induction es with
  | nil => trivial
  | cons e es ih =>
    obtain ⟨he, hrest⟩ := List.forall_mem_cons.mp h
    obtain ⟨hfin, hfins⟩ := orElse_eq_none_iff.mp hes
    exact ⟨he hfin, ih hrest hfins⟩

theorem alike_refl {e : Expr} (h : e.obstacle = none) : Alike e e := by
  induction e with
  | const x => exact Double.sameNumber_refl x
  | var x => rfl
  | neg a iha => exact iha h
  | binary op a b iha ihb =>
    obtain ⟨ha, hb⟩ := orElse_eq_none_iff.mp h
    exact ⟨rfl, iha ha, ihb hb⟩
  | call f a iha => exact ⟨rfl, iha h⟩
  | powCall a b iha ihb =>
    obtain ⟨ha, hb⟩ := orElse_eq_none_iff.mp h
    exact ⟨iha ha, ihb hb⟩
  | unknown n a rest iha ihrest =>
    obtain ⟨ha, hrest⟩ := orElse_eq_none_iff.mp h
    exact ⟨rfl, iha ha, allAlike_refl ihrest hrest⟩
  | blank | pair | datum | oddVar => exact nomatch h

theorem allAlike_iff {es es' : List Expr} : AllAlike es es' ↔ List.Forall₂ Alike es es' := by
  induction es generalizing es' with
  | nil => cases es' <;> simp [AllAlike]
  | cons e es ih => cases es' <;> simp [AllAlike, ih]

/-- Trees that are alike have the same shape, so facts about them go by one induction over both. -/
@[elab_as_elim, induction_eliminator]
theorem Alike.induction {motive : (e e' : Expr) → Alike e e' → Prop}
    (const : ∀ x x' (h : Double.SameNumber x x'), motive (const x) (const x') h)
    (var : ∀ x, motive (var x) (var x) rfl)
    (neg : ∀ a a' (h : Alike a a'), motive a a' h → motive (neg a) (neg a') h)
    (binary : ∀ op a b a' b' (ha : Alike a a') (hb : Alike b b'), motive a a' ha → motive b b' hb →
      motive (binary op a b) (binary op a' b') ⟨rfl, ha, hb⟩)
    (call : ∀ f a a' (h : Alike a a'), motive a a' h → motive (call f a) (call f a') ⟨rfl, h⟩)
    (powCall : ∀ a b a' b' (ha : Alike a a') (hb : Alike b b'), motive a a' ha → motive b b' hb →
      motive (powCall a b) (powCall a' b') ⟨ha, hb⟩)
    (unknown : ∀ n a rest a' rest' (ha : Alike a a') (hrest : AllAlike rest rest'), motive a a' ha →
      List.Forall₂ (fun e e' => ∃ h, motive e e' h) rest rest' →
      motive (unknown n a rest) (unknown n a' rest') ⟨rfl, ha, hrest⟩)
    {e e' : Expr} (h : Alike e e') : motive e e' h := by
  induction e generalizing e' with
  | const x =>
    cases e' with
    | const x' => exact const x x' h
    | _ => exact h.elim
  | var x =>
    cases e' with
    | var x' =>
      obtain rfl : x = x' := h
      exact var x
    | _ => exact h.elim
  | neg a iha =>
    cases e' with
    | neg a' => exact neg a a' h (iha h)
    | _ => exact h.elim
  | binary op a b iha ihb =>
    cases e' with
    | binary op' a' b' =>
      obtain ⟨rfl, ha, hb⟩ := h
      exact binary op a b a' b' ha hb (iha ha) (ihb hb)
    | _ => exact h.elim
  | call f a iha =>
    cases e' with
    | call f' a' =>
      obtain ⟨rfl, ha⟩ := h
      exact call f a a' ha (iha ha)
    | _ => exact h.elim
  | powCall a b iha ihb =>
    cases e' with
    | powCall a' b' => exact powCall a b a' b' h.1 h.2 (iha h.1) (ihb h.2)
    | _ => exact h.elim
  | unknown n a rest iha ihrest =>
    cases e' with
    | unknown n' a' rest' =>
      obtain ⟨rfl, ha, hrest⟩ := h
      have hall := (List.forall₂_and_left rest _).mpr ⟨ihrest, allAlike_iff.mp hrest⟩
      exact unknown n a rest a' rest' ha hrest (iha ha) (hall.imp fun e e' h => ⟨h.2, h.1 h.2⟩)
    | _ => exact h.elim
  | blank | pair | datum | oddVar => exact h.elim

theorem sizeAll_eq {es es' : List Expr} (h : List.Forall₂ (fun e e' => e.size = e'.size) es es') :
    sizeAll es = sizeAll es' := by
  induction h with
  | nil => rfl
  | cons h _ ih => rw [sizeAll, sizeAll, h, ih]

theorem Alike.size_eq {e e' : Expr} (h : Alike e e') : e.size = e'.size := by
  induction h with
  | const | var => rfl
  | neg a a' h iha | call f a a' h iha => rw [size, size, iha]
  | binary op a b a' b' ha hb iha ihb | powCall a b a' b' ha hb iha ihb => rw [size, size, iha, ihb]
  | unknown n a rest a' rest' ha hrest iha ihrest =>
    rw [size, size, iha, sizeAll_eq (ihrest.imp fun _ _ ⟨_, h⟩ => h)]

end Nabla.Expr
