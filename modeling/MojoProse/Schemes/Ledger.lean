import Mathlib.Algebra.Group.Pi.Basic
import Mathlib.Algebra.Order.Pi
import Mathlib.Data.List.Count
import Mathlib.Algebra.GroupWithZero.Nat

/-! Reference counts against references in hand.

    `f` counts the references to each key. Whoever works on the counts starts with some references in
    hand, `w`, and ends with others, `w'`: the counts change by the difference and by nothing else. -/

namespace MojoProse.Schemes

variable {K : Type*}

/-- From counts `f` with `w` in hand to counts `f'` with `w'` in hand. -/
def Trades (f w f' w' : K → ℕ) : Prop := ∀ k, f' k + w k = f k + w' k

namespace Trades
variable {f w f' w' f'' w'' v v' : K → ℕ}

theorem refl (f w : K → ℕ) : Trades f w f w := fun _ => rfl

section

variable (h : Trades f w f' w')
include h

theorem trans (h' : Trades f' w' f'' w'') : Trades f w f'' w'' := by
  intro k
  have h1 := h k
  have h2 := h' k
  omega

theorem frame (v : K → ℕ) : Trades f (w + v) f' (w' + v) := by
  intro k
  have := h k
  simp only [Pi.add_apply]
  omega

/-- The same trade as part of a larger account. -/
theorem exchange (he : v' + w = v + w') : Trades f v f' v' := by
  intro k
  have h1 := h k
  have h2 := congrFun he k
  simp only [Pi.add_apply] at h2
  omega

theorem seq (h' : Trades f' v f'' v') : Trades f (w + v) f'' (w' + v') := by
  intro k
  have h1 := h k
  have h2 := h' k
  simp only [Pi.add_apply]
  omega

theorem covers (hc : w + v ≤ f) : w' + v ≤ f' := by
  intro k
  have h1 := h k
  have h2 := hc k
  simp only [Pi.add_apply] at h2 ⊢
  omega

theorem eq_of_eq (heq : f = w) : f' = w' := by
  funext k
  have h1 := h k
  have h2 := congrFun heq k
  omega

theorem covered (hc : w ≤ f) : w' ≤ f' := by
  rw [Pi.le_def] at hc ⊢
  intro k
  have h1 := h k
  have h2 := hc k
  omega

end

end Trades

variable [DecidableEq K]

/-- One reference for each place in the list. -/
def tally (l : List K) : K → ℕ := fun k => l.count k

@[simp] theorem tally_nil : tally ([] : List K) = 0 := by
  funext k
  simp [tally]

theorem tally_append (l l' : List K) : tally (l ++ l') = tally l + tally l' := by
  funext k
  simp [tally, List.count_append]

theorem tally_cons (k : K) (l : List K) : tally (k :: l) = tally [k] + tally l := by
  rw [← tally_append, List.singleton_append]

theorem tally_perm {l l' : List K} (h : l.Perm l') : tally l = tally l' :=
  funext fun k => h.count_eq k

theorem tally_eq_zero_iff {l : List K} {k : K} : tally l k = 0 ↔ k ∉ l := List.count_eq_zero

end MojoProse.Schemes
