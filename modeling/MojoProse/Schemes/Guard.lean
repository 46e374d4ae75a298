import Mathlib.Logic.Basic

/-! Sequences of guards over `Except`: what it means that all of them passed. -/

namespace MojoProse.Schemes

universe u v
variable {ε : Type u} {α β : Type v} {f : α → Except ε β}

def raiseIf (bad : Prop) [Decidable bad] (e : ε) : Except ε Unit :=
  if bad then .error e else .ok ()

theorem raiseIf_eq_ok {bad : Prop} [Decidable bad] {e : ε} {r : Unit} : raiseIf bad e = .ok r ↔ ¬ bad := by
  unfold raiseIf
  split <;> simp_all

@[simp] theorem ok_bind (a : α) : (.ok a >>= f) = f a := rfl

@[simp] theorem error_bind (e : ε) : (.error e >>= f) = .error e := rfl

@[simp] theorem pure_eq_ok (a : α) : (pure a : Except ε α) = .ok a := rfl

theorem bind_eq_ok {x : Except ε α} {b : β} : (x >>= f) = .ok b ↔ ∃ a, x = .ok a ∧ f a = .ok b := by
  cases x with
  | error e => simp
  | ok a => simp

theorem bind_eq_error {x : Except ε α} {e : ε} :
    (x >>= f) = .error e ↔ x = .error e ∨ ∃ a, x = .ok a ∧ f a = .error e := by
  cases x with
  | error e' => simp
  | ok a => simp

end MojoProse.Schemes
