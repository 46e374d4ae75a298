import Mathlib.Data.List.Basic
import Mathlib.Data.Set.Function
import Mathlib.Tactic.Ring

/-! Chained values over the full blocks of a list.

    `blocks n l` cuts a list into its full blocks of `n`; `chain step p` folds a step over blocks and
    keeps every value. A chain can be resumed from its last value, and when the step does not collide
    on the pairs two chains visit, equal values at one index force equal blocks up to it. -/

namespace MojoProse.Schemes

open List

variable {α P B : Type*}

def block (n : ℕ) (l : List α) (i : ℕ) : List α := (l.drop (i * n)).take n

/-- The full blocks of `l`; a rest shorter than `n` is left out. -/
def blocks (n : ℕ) (l : List α) : List (List α) := (range (l.length / n)).map (block n l)

@[simp] theorem length_blocks (n : ℕ) (l : List α) : (blocks n l).length = l.length / n := by
  simp [blocks]

variable {n k : ℕ} {l : List α}

theorem getElem?_blocks {i : ℕ} (hi : i < l.length / n) : (blocks n l)[i]? = some (block n l i) := by
  simp [blocks, hi]

theorem block_take {i : ℕ} (hi : i < k) : block n (l.take (k * n)) i = block n l i := by
  have hle : i * n + n ≤ k * n := by
    calc i * n + n = (i + 1) * n := by ring
      _ ≤ k * n := Nat.mul_le_mul_right n hi
  rw [block, block, drop_take, take_take, min_eq_left (by omega)]

theorem block_drop {i : ℕ} : block n (l.drop (k * n)) i = block n l (k + i) := by
  rw [block, block, drop_drop, Nat.add_mul]

theorem blocks_take (hn : 0 < n) (hk : k ≤ l.length / n) : blocks n (l.take (k * n)) = (blocks n l).take k := by
  have hlen : (l.take (k * n)).length / n = k := by
    have : k * n ≤ l.length := (Nat.le_div_iff_mul_le hn).mp hk
    rw [length_take, min_eq_left this, Nat.mul_div_cancel k hn]
  apply ext_getElem?
  intro i
  by_cases hi : i < k
  · rw [getElem?_blocks (by omega), getElem?_take_of_lt hi, getElem?_blocks (by omega), block_take hi]
  · rw [getElem?_eq_none (by simp only [length_blocks, hlen]; omega), getElem?_eq_none (by simp; omega)]

theorem blocks_drop : blocks n (l.drop (k * n)) = (blocks n l).drop k := by
  have hlen : (l.drop (k * n)).length / n = l.length / n - k := by
    rw [length_drop, mul_comm k n, Nat.sub_mul_div]
  apply ext_getElem?
  intro i
  rw [getElem?_drop]
  by_cases hi : k + i < l.length / n
  · rw [getElem?_blocks (by omega), getElem?_blocks hi, block_drop]
  · rw [getElem?_eq_none (by simp only [length_blocks, hlen]; omega),
      getElem?_eq_none (by simp only [length_blocks]; omega)]

theorem flatten_take_blocks (hk : k ≤ l.length / n) : ((blocks n l).take k).flatten = l.take (k * n) := by
  induction k with
  | zero => simp
  | succ k ih =>
    rw [take_add_one, getElem?_blocks (by omega), flatten_append, ih (by omega)]
    simp only [Option.toList_some, flatten_cons, flatten_nil, append_nil, block]
    rw [Nat.succ_mul, take_add]

/-- Every value of the fold of `step` from `p`. -/
def chain (step : P → B → P) : P → List B → List P
  | _, [] => []
  | p, b :: bs => step p b :: chain step (step p b) bs

variable {step : P → B → P}

@[simp] theorem length_chain : ∀ (p : P) (bs : List B), (chain step p bs).length = bs.length
  | _, [] => rfl
  | p, b :: bs => by simp [chain, length_chain (step p b) bs]

theorem chain_append : ∀ (p : P) (bs cs : List B),
    chain step p (bs ++ cs) = chain step p bs ++ chain step ((chain step p bs).getLastD p) cs
  | _, [], _ => rfl
  | p, b :: bs, cs => by
    simp only [cons_append, chain, chain_append (step p b) bs cs, getLastD_cons]

theorem chain_take (p : P) (bs : List B) (k : ℕ) : (chain step p bs).take k = chain step p (bs.take k) := by
  induction bs generalizing p k with
  | nil => simp [chain]
  | cons b bs ih =>
    cases k with
    | zero => rfl
    | succ k => simp [chain, ih]

/-- The pairs a chain feeds to its step. -/
def visited (step : P → B → P) : P → List B → List (P × B)
  | _, [] => []
  | p, b :: bs => (p, b) :: visited step (step p b) bs

theorem chain_map {C : Type*} (f : B → C) (g : P → C → P) :
    ∀ (p : P) (bs : List B), chain (fun p b => g p (f b)) p bs = chain g p (bs.map f)
  | _, [] => rfl
  | p, b :: bs => by simp [chain, chain_map f g (g p (f b)) bs]

/-- Where the step does not collide, equal values at an index force equal blocks up to it. -/
theorem chain_inj {p : P} {S : Set (P × B)} (hinj : Set.InjOn (Function.uncurry step) S) :
    ∀ {i : ℕ} {bs cs : List B} {h : P}, (∀ x ∈ visited step p bs, x ∈ S) →
      (∀ x ∈ visited step p cs, x ∈ S) → (chain step p bs)[i]? = some h →
      (chain step p cs)[i]? = some h → bs.take (i + 1) = cs.take (i + 1) := by
  -- from the end: the last step gives its block and its parent, which is the value before it
  suffices H : ∀ (i : ℕ) (p q : P) (bs cs : List B) (h : P), (∀ x ∈ visited step p bs, x ∈ S) →
      (∀ x ∈ visited step q cs, x ∈ S) → (chain step p bs)[i]? = some h →
      (chain step q cs)[i]? = some h → p = q ∧ bs.take (i + 1) = cs.take (i + 1) by
    intro i bs cs h hb hc h1 h2
    exact (H i p p bs cs h hb hc h1 h2).2
  intro i
  induction i with
  | zero =>
    rintro p q (_ | ⟨b, bs⟩) (_ | ⟨c, cs⟩) h hb hc h1 h2 <;> simp [chain] at h1 h2
    have heq := hinj (hb (p, b) (by simp [visited])) (hc (q, c) (by simp [visited])) (by simp [h1, h2])
    simp only [Prod.mk.injEq] at heq
    simp [heq]
  | succ i ih =>
    rintro p q (_ | ⟨b, bs⟩) (_ | ⟨c, cs⟩) h hb hc h1 h2 <;> simp [chain] at h1 h2
    obtain ⟨hpq, hrest⟩ := ih (step p b) (step q c) bs cs h
      (fun x hx => hb x (by simp [visited, hx])) (fun x hx => hc x (by simp [visited, hx])) h1 h2
    have heq := hinj (hb (p, b) (by simp [visited])) (hc (q, c) (by simp [visited])) hpq
    simp only [Prod.mk.injEq] at heq
    exact ⟨heq.1, by simp [heq.2, hrest]⟩

end MojoProse.Schemes
