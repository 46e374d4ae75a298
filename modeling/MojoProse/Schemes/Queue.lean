import Mathlib.Data.List.Nodup

/-! Keys in the order of their insertion, as an ordered dictionary keeps them. -/

namespace MojoProse.Schemes

open List

structure Queue (α : Type) where
  keys : List α
  nodup : keys.Nodup

namespace Queue
variable {α : Type} [DecidableEq α] {q : Queue α} {a : α}

instance : Membership α (Queue α) := ⟨fun q a => a ∈ q.keys⟩

instance (a : α) (q : Queue α) : Decidable (a ∈ q) := inferInstanceAs (Decidable (a ∈ q.keys))

def empty : Queue α := ⟨[], nodup_nil⟩

/-- `d[a] = v`: a new key goes to the end, an old one keeps its place. -/
def push (q : Queue α) (a : α) : Queue α :=
  if h : a ∈ q.keys then q
  else ⟨q.keys ++ [a], nodup_append.mpr ⟨q.nodup, nodup_singleton a, by
    intro x hx y hy hxy
    cases mem_singleton.mp hy
    exact h (hxy ▸ hx)⟩⟩

/-- `d.pop(a, None)`. -/
def erase (q : Queue α) (a : α) : Queue α := ⟨q.keys.erase a, q.nodup.erase a⟩

/-- `d[a] = v; d.move_to_end(a, last=False)`. -/
def toFront (q : Queue α) (a : α) : Queue α :=
  ⟨a :: q.keys.erase a, nodup_cons.mpr ⟨q.nodup.not_mem_erase, q.nodup.erase a⟩⟩

def length (q : Queue α) : ℕ := q.keys.length

omit [DecidableEq α] in
theorem mem_keys : a ∈ q.keys ↔ a ∈ q := Iff.rfl

omit [DecidableEq α] in
@[simp] theorem notMem_empty (a : α) : a ∉ (empty : Queue α) := List.not_mem_nil

@[simp, grind =] theorem mem_push {b : α} : b ∈ q.push a ↔ b ∈ q ∨ b = a := by
  rw [push]
  split_ifs with h
  · exact ⟨.inl, fun hb => hb.elim id fun heq => heq ▸ h⟩
  · simp [← mem_keys]

@[simp, grind =] theorem mem_erase {b : α} : b ∈ q.erase a ↔ b ∈ q ∧ b ≠ a := by
  rw [← mem_keys, erase, q.nodup.mem_erase_iff, and_comm, mem_keys]

@[simp, grind =] theorem mem_toFront {b : α} : b ∈ q.toFront a ↔ b ∈ q ∨ b = a := by
  rw [← mem_keys, toFront, mem_cons, q.nodup.mem_erase_iff, ← mem_keys]
  constructor
  · rintro (rfl | ⟨-, h⟩)
    · exact .inr rfl
    · exact .inl h
  · rintro (h | rfl)
    · by_cases hb : b = a
      · exact .inl hb
      · exact .inr ⟨hb, h⟩
    · exact .inl rfl

/-- A key that two of the queues never share is listed at most once in all of them. -/
theorem count_flatMap_keys_le_one {ι : Type} {q : ι → Queue α} (hone : ∀ i j, a ∈ q i → a ∈ q j → i = j) :
    ∀ {l : List ι}, l.Nodup → (l.flatMap fun i => (q i).keys).count a ≤ 1
  | [], _ => by simp
  | i :: l, hl => by
    obtain ⟨hi, hl'⟩ := nodup_cons.mp hl
    have ih := count_flatMap_keys_le_one hone hl'
    rw [flatMap_cons, count_append]
    by_cases ha : a ∈ q i
    · have hrest : a ∉ l.flatMap fun i => (q i).keys := by
        simp only [mem_flatMap, not_exists, not_and]
        intro j hj haj
        exact hi (hone i j ha haj ▸ hj)
      rw [count_eq_zero.mpr hrest]
      exact nodup_iff_count_le_one.mp (q i).nodup a
    · rw [count_eq_zero.mpr ha]
      omega

theorem foldl_toFront : ∀ (l : List α) (q : Queue α), l.Nodup →
    (l.foldl toFront q).keys = l.reverse ++ q.keys.filter (· ∉ l)
  | [], q, _ => by simp
  | a :: l, q, h => by
    obtain ⟨ha, hl⟩ := nodup_cons.mp h
    have hrest : (q.keys.erase a).filter (· ∉ l) = q.keys.filter (· ∉ a :: l) := by
      rw [q.nodup.erase_eq_filter, filter_filter]
      refine filter_congr fun r _ => ?_
      simp [bne, Bool.and_comm, Bool.beq_eq_decide_eq]
    rw [foldl_cons, foldl_toFront l _ hl, toFront, filter_cons_of_pos (by simpa using ha), hrest, reverse_cons,
      append_assoc, singleton_append]

end Queue

end MojoProse.Schemes
