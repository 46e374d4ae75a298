import Mathlib.Data.List.Basic
import Mathlib.Tactic.Ring
import Mathlib.Tactic.Linarith

/-! Settling on a bound that every narrowing accepts.

    A narrowing takes a bound to one that is no larger and that it then accepts. Asking a list of them in turn, round
    and round, until as many in a row as there are accept the bound, ends with one that they all accept. -/

namespace MojoProse.Schemes

open List

/-- A map that lowers a bound to one it leaves alone. -/
structure Narrows (f : ℕ → ℕ) : Prop where
  le : ∀ n, f n ≤ n
  fixed : ∀ n, f (f n) = f n

/-- Ask the head, then put it at the back. `accepted` counts the maps that accepted the bound since it last moved. -/
def settle : ℕ → List (ℕ → ℕ) → ℕ → ℕ → ℕ
  | 0, _, candidate, _ => candidate
  | _ + 1, [], candidate, _ => candidate
  | fuel + 1, f :: rest, candidate, accepted =>
    if candidate ≠ 0 ∧ accepted < rest.length + 1 then
      settle fuel (rest ++ [f]) (f candidate) (if f candidate = candidate then accepted + 1 else 1)
    else candidate

/-- Enough turns: each either lowers the bound or adds an acceptance. -/
def settleFuel (fs : List (ℕ → ℕ)) (candidate : ℕ) : ℕ := (candidate + 1) * (fs.length + 1)

variable {rest : List (ℕ → ℕ)}

/-- One turn: the maps that accepted the new bound are again at the back. -/
theorem accepted_step {f : ℕ → ℕ} {candidate accepted : ℕ} (hf : Narrows f) (hlt : accepted < rest.length + 1)
    (hacc : ∀ h ∈ (f :: rest).drop ((f :: rest).length - accepted), h candidate = candidate) :
    ∀ h ∈ (rest ++ [f]).drop ((rest ++ [f]).length - if f candidate = candidate then accepted + 1 else 1),
      h (f candidate) = f candidate := by
  intro h hmem
  split_ifs at hmem with heq
  · rw [heq]
    have hlen : (rest ++ [f]).length - (accepted + 1) = rest.length - accepted := by simp
    rw [hlen, drop_append_of_le_length (by omega), mem_append, mem_singleton] at hmem
    rcases hmem with hmem | rfl
    · apply hacc
      have hlen' : (f :: rest).length - accepted = rest.length - accepted + 1 := by
        simp only [length_cons]
        omega
      rw [hlen', drop_succ_cons]
      exact hmem
    · exact heq
  · have hlen : (rest ++ [f]).length - 1 = rest.length := by simp
    rw [hlen, drop_append_of_le_length le_rfl, drop_length, nil_append, mem_singleton] at hmem
    rw [hmem]
    exact hf.fixed candidate

/-- The loop without a bound on its turns: it ends, with `n`. -/
inductive Settles : List (ℕ → ℕ) → ℕ → ℕ → ℕ → Prop
  | done {fs candidate accepted} (h : ¬(candidate ≠ 0 ∧ accepted < fs.length)) :
      Settles fs candidate accepted candidate
  | turn {f rest candidate accepted n} (h : candidate ≠ 0 ∧ accepted < rest.length + 1)
      (next : Settles (rest ++ [f]) (f candidate) (if f candidate = candidate then accepted + 1 else 1) n) :
      Settles (f :: rest) candidate accepted n

theorem mem_turned {f g : ℕ → ℕ} : g ∈ rest ++ [f] ↔ g ∈ f :: rest := by
  simp [or_comm]

/-- With enough turns the loop ends: a turn lowers the bound or adds an acceptance. -/
theorem settles_settle : ∀ (fuel : ℕ) (fs : List (ℕ → ℕ)) (candidate accepted : ℕ),
    (∀ f ∈ fs, Narrows f) → candidate * (fs.length + 1) + (fs.length - accepted) < fuel →
      Settles fs candidate accepted (settle fuel fs candidate accepted)
  | 0, _, _, _, _, hfuel => absurd hfuel (Nat.not_lt_zero _)
  | _ + 1, [], _, _, _, _ => .done (by simp)
  | fuel + 1, f :: rest, candidate, accepted, hfs, hfuel => by
    by_cases hgo : candidate ≠ 0 ∧ accepted < rest.length + 1
    · rw [settle, if_pos hgo]
      refine .turn hgo (settles_settle fuel _ _ _ (fun g hg => hfs g (mem_turned.mp hg)) ?_)
      simp only [length_append, length_cons, length_nil, zero_add] at hfuel ⊢
      split_ifs with heq
      · rw [heq]
        omega
      · have hdown : f candidate + 1 ≤ candidate := by
          have := (hfs f (by simp)).le candidate
          omega
        have := Nat.mul_le_mul_right (rest.length + 1 + 1) hdown
        rw [Nat.add_mul] at this
        omega
    · rw [settle, if_neg hgo]
      exact .done hgo

section Settles

variable {fs : List (ℕ → ℕ)} {candidate count n : ℕ}

theorem Settles.accepted (h : Settles fs candidate count n) : (∀ f ∈ fs, Narrows f) → count ≤ fs.length →
    (∀ f ∈ fs.drop (fs.length - count), f candidate = candidate) → n ≤ candidate ∧ ∀ f ∈ fs, f n = n := by
  induction h with
  | @done fs candidate accepted hend =>
    intro hfs hle hacc
    refine ⟨le_rfl, fun f hf => ?_⟩
    rcases Nat.eq_zero_or_pos candidate with rfl | hpos
    · exact Nat.le_zero.mp ((hfs f hf).le 0)
    · have hall : fs.length - accepted = 0 := by omega
      rw [hall, drop_zero] at hacc
      exact hacc f hf
  | @turn f rest candidate accepted n hgo _ ih =>
    intro hfs hle hacc
    have hf := hfs f (by simp)
    obtain ⟨h1, h2⟩ := ih (fun g hg => hfs g (mem_turned.mp hg))
      (by rw [length_append, length_singleton]; split_ifs <;> omega) (accepted_step hf hgo.2 hacc)
    exact ⟨h1.trans (hf.le candidate), fun g hg => h2 g (mem_turned.mpr hg)⟩

theorem Settles.accepted_all (h : Settles fs candidate 0 n) (hfs : ∀ f ∈ fs, Narrows f) :
    n ≤ candidate ∧ ∀ f ∈ fs, f n = n :=
  h.accepted hfs (Nat.zero_le _) (by simp)

theorem Settles.keeps (h : Settles fs candidate count n) {m : ℕ} : (∀ f ∈ fs, ∀ k, m ≤ k → m ≤ f k) →
    m ≤ candidate → m ≤ n := by
  induction h with
  | done _ => exact fun _ hm => hm
  | @turn f rest candidate _ _ _ _ ih =>
    intro hfs hm
    exact ih (fun g hg => hfs g (mem_turned.mp hg)) (hfs f (by simp) candidate hm)

end Settles

/-- From nothing accepted, with the fuel the loop gets. -/
theorem settle_spec (fs : List (ℕ → ℕ)) (hfs : ∀ f ∈ fs, Narrows f) (candidate : ℕ) :
    Settles fs candidate 0 (settle (settleFuel fs candidate) fs candidate 0) := by
  apply settles_settle _ _ _ _ hfs
  rw [settleFuel, Nat.add_mul]
  omega

end MojoProse.Schemes
