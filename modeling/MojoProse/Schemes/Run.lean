import Mathlib.Logic.Basic

/-! Runs of a state machine and the invariant rule. -/

namespace MojoProse.Schemes

variable {S A : Type*} {allowed : S → A → Prop}

/-- The states reached from `init` by steps that are `allowed` where they are taken. -/
inductive Reachable (init : S) (allowed : S → A → Prop) (step : S → A → S) : S → Prop
  | start : Reachable init allowed step init
  | next {s : S} {a : A} (hs : Reachable init allowed step s) (ha : allowed s a) :
      Reachable init allowed step (step s a)

/-- What holds initially and is preserved by every allowed step holds in every reachable state. -/
theorem Reachable.invariant {init : S} {step : S → A → S} {Inv : S → Prop} (hinit : Inv init)
    (hstep : ∀ s a, Inv s → allowed s a → Inv (step s a)) {s : S} (h : Reachable init allowed step s) : Inv s := by
  induction h with
  | start => exact hinit
  | next _ ha ih => exact hstep _ _ ih ha

/-- Every action of the list is allowed where it is taken. -/
def AllowedRun (allowed : S → A → Prop) (step : S → A → S) : S → List A → Prop
  | _, [] => True
  | s, a :: as => allowed s a ∧ AllowedRun allowed step (step s a) as

instance AllowedRun.decidable (allowed : S → A → Prop) (step : S → A → S)
    [∀ s a, Decidable (allowed s a)] : ∀ s as, Decidable (AllowedRun allowed step s as)
  | _, [] => inferInstanceAs (Decidable True)
  | s, a :: as =>
    have := AllowedRun.decidable allowed step (step s a) as
    inferInstanceAs (Decidable (allowed s a ∧ AllowedRun allowed step (step s a) as))

theorem Reachable.run {init : S} {step : S → A → S} :
    ∀ {s : S} (as : List A), Reachable init allowed step s → AllowedRun allowed step s as →
      Reachable init allowed step (as.foldl step s)
  | _, [], hs, _ => hs
  | _, _ :: as, hs, ⟨ha, has⟩ => Reachable.run as (.next hs ha) has

end MojoProse.Schemes
