import Mathlib.Order.Basic
import Mathlib.Tactic.Basic

/-! Binary search for the first place where a monotone test holds, and search downwards for the last one. -/

namespace MojoProse.Schemes
open List

/-- `bisect_left` over a range, for a key that is a test: the loop on `lo` and `hi`. -/
def bisectLeft (test : ℕ → Bool) (lo hi : ℕ) : ℕ :=
  if lo < hi then
    if test ((lo + hi) / 2) then bisectLeft test lo ((lo + hi) / 2)
    else bisectLeft test ((lo + hi) / 2 + 1) hi
  else lo
termination_by hi - lo

/-- Below the result the test fails; at the result it holds, unless that is the end of the range. -/
theorem bisectLeft_spec {test : ℕ → Bool} {n : ℕ} (hmono : ∀ i j, i ≤ j → test i = true → test j = true)
    (lo hi : ℕ) (hle : lo ≤ hi) (hlow : ∀ i < lo, test i = false) (hn : hi ≤ n) (hhigh : hi < n → test hi = true) :
    bisectLeft test lo hi ≤ n ∧ (∀ i < bisectLeft test lo hi, test i = false) ∧
      (bisectLeft test lo hi < n → test (bisectLeft test lo hi) = true) := by
  induction lo, hi using bisectLeft.induct test with
  | case1 lo hi hlt htest ih =>
    rw [bisectLeft, if_pos hlt, if_pos htest]
    exact ih (by omega) hlow (by omega) fun _ => htest
  | case2 lo hi hlt htest ih =>
    rw [bisectLeft, if_pos hlt, if_neg htest]
    refine ih (by omega) (fun i hi => ?_) hn hhigh
    by_contra h
    exact htest (hmono i _ (by omega) (by simpa using h))
  | case3 lo hi hge =>
    obtain rfl : lo = hi := by omega
    rw [bisectLeft, if_neg hge]
    exact ⟨hn, hlow, hhigh⟩

theorem find?_reverse_range {p : ℕ → Bool} : ∀ {n i : ℕ}, (range n).reverse.find? p = some i →
    p i = true ∧ ∀ j < n, p j = true → j ≤ i
  | 0, i, h => by cases h
  | n + 1, i, h => by
    rw [range_succ, reverse_append, reverse_singleton, singleton_append, find?_cons] at h
    split at h
    · obtain rfl := Option.some.inj h
      exact ⟨by assumption, fun j hj _ => Nat.le_of_lt_succ hj⟩
    · obtain ⟨hi, hmax⟩ := find?_reverse_range h
      refine ⟨hi, fun j hj hpj => hmax j (Nat.lt_of_le_of_ne (Nat.le_of_lt_succ hj) ?_) hpj⟩
      rintro rfl
      simp_all

end MojoProse.Schemes
