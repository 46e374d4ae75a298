import Mathlib.Algebra.Order.Ring.Int
import Mathlib.Algebra.BigOperators.Group.List.Basic
import Mathlib.Tactic.Linarith
import Mathlib.Tactic.Ring

/-! Integer arithmetic of `max.support.math`, with Python's floor division. -/

namespace MojoProse.Support

/-- `ceildiv`: `-(a // -b)`. -/
def ceildiv (a b : ℤ) : ℤ := -(a.fdiv (-b))

variable {a b k : ℤ}

/-- The rounded-up quotient is the least number of `b`s that reach `a`. -/
theorem ceildiv_le_iff (hb : 0 < b) : ceildiv a b ≤ k ↔ a ≤ k * b := by
  have hfdiv : a.fdiv (-b) = -a / b := by
    rw [← Int.fdiv_eq_ediv_of_nonneg _ hb.le, ← Int.neg_fdiv_neg, neg_neg]
  rw [ceildiv, hfdiv, neg_le, Int.le_ediv_iff_mul_le hb]
  constructor
  · intro h
    linarith
  · intro h
    linarith

theorem toNat_ceildiv_le_iff {p n : ℕ} (hp : 0 < p) : (ceildiv a p).toNat ≤ n ↔ a ≤ (n * p : ℕ) := by
  rw [Int.toNat_le, ceildiv_le_iff (by exact_mod_cast hp), Nat.cast_mul]

theorem toNat_ceildiv_mono {p : ℕ} (hp : 0 < p) (h : a ≤ b) : (ceildiv a p).toNat ≤ (ceildiv b p).toNat :=
  (toNat_ceildiv_le_iff hp).mpr (h.trans ((toNat_ceildiv_le_iff hp).mp le_rfl))

theorem ceildiv_nonneg (hb : 0 < b) (ha : 0 ≤ a) : 0 ≤ ceildiv a b := by
  by_contra h
  have h1 : ceildiv a b ≤ -1 := by omega
  have h2 := (ceildiv_le_iff hb).mp h1
  linarith

theorem ceildiv_sub_mul (hb : 0 < b) (n : ℤ) : ceildiv (a - n * b) b = ceildiv a b - n := by
  apply le_antisymm
  · rw [ceildiv_le_iff hb, sub_mul]
    have := (ceildiv_le_iff (a := a) hb).mp le_rfl
    linarith
  · rw [sub_le_iff_le_add, ceildiv_le_iff hb, add_mul]
    have := (ceildiv_le_iff (a := a - n * b) hb).mp le_rfl
    linarith

/-- A counter charged once for each element. -/
theorem foldl_sub {α : Type*} (f : α → ℤ) : ∀ (l : List α) (k : ℤ), l.foldl (fun k e => k - f e) k = k - (l.map f).sum
  | [], k => by simp
  | e :: l, k => by
    rw [List.foldl_cons, foldl_sub f l, List.map_cons, List.sum_cons]
    ring

end MojoProse.Support
