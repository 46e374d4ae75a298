import Mathlib.Data.Nat.Find
import Mathlib.Data.Finset.Card
import Mathlib.Data.Finset.Range
import Mathlib.Logic.Function.Basic

/-! Group probing in a table of `cap` slots: from its start, a search looks at `width` slots at a time and comes round to
    the beginning after the last slot. -/

namespace MojoProse.Schemes

open Finset Nat

/-- The slot at place `b` of group `k`. -/
def probeSlot (cap width start k b : ℕ) : ℕ := (start + k * width + b) % cap

variable {cap width start s : ℕ} {P Q : ℕ → Prop}

theorem probeSlot_lt (hcap : 0 < cap) (k b : ℕ) : probeSlot cap width start k b < cap := mod_lt _ hcap

theorem probeSlot_succ (cap width start k : ℕ) :
    (probeSlot cap width start k 0 + width) % cap = probeSlot cap width start (k + 1) 0 := by
  rw [probeSlot, probeSlot, mod_add_mod, succ_mul]
  congr 1
  omega

theorem probeSlot_add (cap width start k b : ℕ) :
    (probeSlot cap width start k 0 + b) % cap = probeSlot cap width start k b := by
  rw [probeSlot, probeSlot, Nat.mod_add_mod, Nat.add_zero]

theorem exists_probeSlot (hwidth : 0 < width) (hdvd : width ∣ cap) (start : ℕ) (hs : s < cap) :
    ∃ k < cap / width, ∃ b < width, probeSlot cap width start k b = s := by
  have hcap : 0 < cap := by omega
  -- The distance from the start to the slot, in the direction of the search.
  let d := (s + (cap - start % cap)) % cap
  have hd : d < cap := mod_lt _ hcap
  refine ⟨d / width, div_lt_div_of_lt_of_dvd hdvd hd, d % width, mod_lt _ hwidth, ?_⟩
  have hstart := Nat.mod_lt start hcap
  rw [probeSlot, Nat.add_assoc, Nat.mul_comm, Nat.div_add_mod, Nat.add_mod_mod, ← Nat.mod_add_mod]
  have hsum : start % cap + (s + (cap - start % cap)) = s + cap := by omega
  rw [hsum, add_mod_right, mod_eq_of_lt hs]

/-- `P` holds of all slots in the groups before `k`. -/
def Before (cap width start : ℕ) (P : ℕ → Prop) (k : ℕ) : Prop :=
  ∀ k' < k, ∀ b < width, P (probeSlot cap width start k' b)

theorem Before.zero : Before cap width start P 0 := fun _ h => absurd h (not_lt_zero _)

theorem Before.succ {k : ℕ} (h : Before cap width start P k)
    (hk : ∀ b < width, P (probeSlot cap width start k b)) : Before cap width start P (k + 1) := by
  intro k' hk' b hb
  rcases Nat.lt_succ_iff_lt_or_eq.1 hk' with hlt | rfl
  · exact h k' hlt b hb
  · exact hk b hb

/-- A search that goes on as long as all slots of a group have `P` comes to the group of `s`. -/
def Reach (cap width start : ℕ) (P : ℕ → Prop) (s : ℕ) : Prop :=
  ∃ k, ∃ b < width, probeSlot cap width start k b = s ∧ Before cap width start P k

theorem Reach.mono (h : Reach cap width start P s) (hPQ : ∀ i < cap, P i → Q i) (hcap : 0 < cap) :
    Reach cap width start Q s := by
  obtain ⟨k, b, hb, hs, hbef⟩ := h
  exact ⟨k, b, hb, hs, fun k' hk' b' hb' => hPQ _ (probeSlot_lt hcap ..) (hbef k' hk' b' hb')⟩

/-- If a slot without `P` is in group `k`, then what is reached is in a group up to `k`. -/
theorem Reach.le {k b : ℕ} (h : Reach cap width start P s) (hb : b < width)
    (hnot : ¬ P (probeSlot cap width start k b)) : ∃ k' ≤ k, ∃ b' < width, probeSlot cap width start k' b' = s := by
  obtain ⟨k', b', hb', hs, hbef⟩ := h
  refine ⟨k', ?_, b', hb', hs⟩
  by_contra hlt
  exact hnot (hbef k (by omega) b hb)

open Classical in
noncomputable def slotCount (cap : ℕ) (P : ℕ → Prop) : ℕ := ((range cap).filter P).card

open Classical in
theorem slotCount_congr (h : ∀ i < cap, P i ↔ Q i) : slotCount cap P = slotCount cap Q := by
  unfold slotCount
  congr 1
  refine filter_congr fun i hi => h i (mem_range.1 hi)

theorem slotCount_le (h : ∀ i < cap, P i → Q i) : slotCount cap P ≤ slotCount cap Q := by
  classical
  refine card_le_card fun i hi => ?_
  obtain ⟨hi, hP⟩ := mem_filter.1 hi
  exact mem_filter.2 ⟨hi, h i (mem_range.1 hi) hP⟩

theorem slotCount_insert (hs : s < cap) (hP : ¬ P s) (hQ : Q s) (h : ∀ i < cap, i ≠ s → (Q i ↔ P i)) :
    slotCount cap Q = slotCount cap P + 1 := by
  classical
  have hset : (range cap).filter Q = insert s ((range cap).filter P) := by
    ext i
    simp only [mem_filter, mem_range, mem_insert]
    rcases eq_or_ne i s with rfl | hne
    · simp [hs, hQ]
    · constructor
      · rintro ⟨hi, hQi⟩
        exact .inr ⟨hi, (h i hi hne).1 hQi⟩
      · rintro (rfl | ⟨hi, hPi⟩)
        · exact absurd rfl hne
        · exact ⟨hi, (h i hi hne).2 hPi⟩
  unfold slotCount
  convert card_insert_of_notMem (s := (range cap).filter P) (a := s) (by simp [hP]) using 2

/-- The slots with `P` and those with `Q` are in correspondence. -/
theorem slotCount_eq_of_map {cap' : ℕ} (m : ℕ → ℕ) (hmap : ∀ i < cap, P i → m i < cap' ∧ Q (m i))
    (hinj : ∀ i j, P i → P j → m i = m j → i = j) (hsurj : ∀ j < cap', Q j → ∃ i < cap, P i ∧ m i = j) :
    slotCount cap P = slotCount cap' Q := by
  classical
  refine card_bij (fun i _ => m i) ?_ ?_ ?_
  · intro i hi
    obtain ⟨hi, hP⟩ := mem_filter.1 hi
    obtain ⟨hlt, hQ⟩ := hmap i (mem_range.1 hi) hP
    exact mem_filter.2 ⟨mem_range.2 hlt, hQ⟩
  · intro i hi j hj hij
    exact hinj i j (mem_filter.1 hi).2 (mem_filter.1 hj).2 hij
  · intro j hj
    obtain ⟨hj, hQ⟩ := mem_filter.1 hj
    obtain ⟨i, hi, hP, hij⟩ := hsurj j (mem_range.1 hj) hQ
    exact ⟨i, mem_filter.2 ⟨mem_range.2 hi, hP⟩, hij⟩

theorem slotCount_true : slotCount cap (fun _ => True) = cap := by
  simp [slotCount]

theorem slotCount_le_cap (cap : ℕ) (P : ℕ → Prop) : slotCount cap P ≤ cap := by
  calc slotCount cap P ≤ slotCount cap (fun _ => True) := slotCount_le fun _ _ _ => trivial
    _ = cap := slotCount_true

theorem exists_not_of_slotCount_lt (h : slotCount cap P < cap) : ∃ s < cap, ¬ P s := by
  by_contra hall
  have hcnt : slotCount cap P = cap := by
    rw [slotCount_congr (fun i hi => iff_true_intro ?_), slotCount_true]
    by_contra hnot
    exact hall ⟨i, hi, hnot⟩
  omega

theorem length_eq_slotCount {l : List ℕ} (hnd : l.Nodup) (hmem : ∀ i, i ∈ l ↔ i < cap ∧ P i) :
    l.length = slotCount cap P := by
  classical
  rw [slotCount, ← List.toFinset_card_of_nodup hnd]
  congr 1
  ext i
  rw [List.mem_toFinset, hmem, mem_filter, mem_range]

end MojoProse.Schemes
