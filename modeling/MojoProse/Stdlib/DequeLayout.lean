import MojoProse.Stdlib.Deque

/-! The list that stands in the buffer of a `Deque`, through the steps of its methods. -/

namespace MojoProse.Stdlib

open Schemes List Deque Int Nat

variable {α : Type}

theorem pos_of_power {n : ℕ} (h : ∃ k, n = 2 ^ k) : 0 < n := by
  obtain ⟨k, rfl⟩ := h
  exact Nat.two_pow_pos k

theorem nextPowerOfTwo_spec (n : ℕ) : (∃ k, nextPowerOfTwo n = 2 ^ k) ∧ n ≤ nextPowerOfTwo n := by
  rw [nextPowerOfTwo]
  split_ifs with h
  · rw [Nat.one_shiftLeft]
    have hlt := Nat.lt_size_self (n - 1)
    exact ⟨⟨_, rfl⟩, by omega⟩
  · exact ⟨⟨0, rfl⟩, by omega⟩

theorem roomy_spec (n : ℕ) : let capacity := if nextPowerOfTwo n = n then nextPowerOfTwo n <<< 1 else nextPowerOfTwo n
    (∃ k, capacity = 2 ^ k) ∧ n < capacity := by
  obtain ⟨⟨k, hk⟩, hle⟩ := nextPowerOfTwo_spec n
  split_ifs with heq
  · have hpos := Nat.two_pow_pos k
    rw [Nat.shiftLeft_eq, Nat.pow_one]
    refine ⟨⟨k + 1, by rw [hk, pow_succ]⟩, by omega⟩
  · exact ⟨⟨k, hk⟩, by omega⟩

/-- The list stands in the buffer from the head on; it may fill the buffer. -/
structure Layout (d : Deque α) (l : List α) : Prop where
  power : ∃ k, d.capacity = 2 ^ k
  head_lt : d.head < d.capacity
  tail_eq : d.tail = wrap d.capacity (d.head + l.length)
  length_le : l.length ≤ d.capacity
  holds : Holds d.data d.capacity d.head l

namespace Layout

variable {d : Deque α} {l : List α}

section
variable (h : Layout d l)
include h

theorem pos : 0 < d.capacity := zero_lt_of_lt h.head_lt

theorem physicalIndex_eq (i : ℤ) : d.physicalIndex i = wrap d.capacity i := by
  obtain ⟨k, hk⟩ := h.power
  rw [physicalIndex, hk]
  exact_mod_cast land_two_pow_sub_one i k

theorem wrap_head : wrap d.capacity d.head = d.head := wrap_of_lt h.head_lt

theorem physicalIndex_tail_add (j : ℤ) : d.physicalIndex (d.tail + j) = wrap d.capacity (d.head + l.length + j) := by
  rw [h.physicalIndex_eq, h.tail_eq, wrap_wrap_add h.pos]

theorem physicalIndex_tail_sub (j : ℤ) : d.physicalIndex (d.tail - j) = wrap d.capacity (d.head + l.length - j) := by
  exact h.physicalIndex_tail_add (-j)

theorem len_eq (hlt : l.length < d.capacity) : d.len = l.length := by
  have hlen := h.physicalIndex_tail_sub d.head
  rwa [add_sub_cancel_left, wrap_of_lt hlt] at hlen

theorem head_eq_tail_iff : d.head = d.tail ↔ l.length = 0 ∨ l.length = d.capacity := by
  have hpos := h.pos
  have hle := h.length_le
  rw [h.tail_eq]
  constructor
  · intro heq
    rcases lt_or_ge l.length d.capacity with hlt | hge
    · have hwrap : wrap d.capacity d.head = wrap d.capacity (d.head + l.length) := h.wrap_head.trans heq
      have := wrap_inj hpos (by omega) (by omega) hwrap
      omega
    · omega
  · rintro (hzero | hfull)
    · rw [hzero, Nat.cast_zero, add_zero, h.wrap_head]
    · rw [hfull, wrap_add_cap, h.wrap_head]

end

/-- A layout by the position of its head. -/
theorem ofPosition {d' : Deque α} (hpower : ∃ k, d'.capacity = 2 ^ k) {p : ℤ} (hhead : d'.head = wrap d'.capacity p)
    (htail : d'.tail = wrap d'.capacity (p + l.length)) (hlen : l.length ≤ d'.capacity)
    (hholds : Holds d'.data d'.capacity p l) : Layout d' l := by
  have hpos := pos_of_power hpower
  refine ⟨hpower, hhead ▸ wrap_lt hpos p, ?_, hlen, ?_⟩
  · rw [hhead, wrap_wrap_add hpos, htail]
  · rw [hhead, holds_wrap hpos]
    exact hholds

theorem empty {d' : Deque α} (hpower : ∃ k, d'.capacity = 2 ^ k) (hhead : d'.head = 0) (htail : d'.tail = 0) :
    Layout d' [] := by
  have hzero := wrap_of_lt (pos_of_power hpower)
  exact @ofPosition _ [] d' hpower 0 (hhead.trans hzero.symm) (htail.trans hzero.symm) (zero_le _) holds_nil

theorem dropLeft {a : α} (h : Layout d (a :: l)) : Layout d.dropLeft l := by
  have hlen := h.length_le
  simp only [length_cons] at hlen
  refine ofPosition h.power (h.physicalIndex_eq _) ?_ (by simp only [Deque.dropLeft]; omega) ?_
  · simp only [Deque.dropLeft, h.tail_eq, length_cons]
    congr 1
    omega
  · have hdestroy := @Holds.destroy _ _ _ _ _ h.holds.tail d.head (.inl (by omega)) (by omega) (by omega)
    rwa [h.wrap_head] at hdestroy

theorem physicalIndex_last {a : α} (h : Layout d (l ++ [a])) :
    d.physicalIndex (d.tail - 1) = wrap d.capacity (d.head + l.length) := by
  rw [h.physicalIndex_tail_sub, length_append, length_singleton]
  congr 1
  omega

theorem dropRight {a : α} (h : Layout d (l ++ [a])) : Layout d.dropRight l := by
  have hlen := h.length_le
  simp only [length_append, length_singleton] at hlen
  refine ofPosition h.power h.wrap_head.symm h.physicalIndex_last (by simp only [Deque.dropRight]; omega) ?_
  simp only [Deque.dropRight, h.physicalIndex_last]
  exact h.holds.init.destroy (.inr (by omega)) (by omega) (by omega)

section

variable (h : Layout d l)
include h

theorem pushRight (hlt : l.length < d.capacity) (v : α) : Layout (d.pushRight v) (l ++ [v]) := by
  refine ofPosition h.power h.wrap_head.symm ?_ ?_ ?_
  · simp only [Deque.pushRight, h.physicalIndex_eq, h.tail_eq, wrap_wrap_add h.pos, length_append, length_singleton]
    congr 1
  · simp only [Deque.pushRight, length_append, length_singleton]
    omega
  · simp only [Deque.pushRight, h.tail_eq]
    exact h.holds.concat hlt v

theorem pushLeft (hlt : l.length < d.capacity) (v : α) : Layout (d.pushLeft v) (v :: l) := by
  refine ofPosition h.power (h.physicalIndex_eq _) ?_ hlt ?_
  · simp only [Deque.pushLeft, h.tail_eq, length_cons]
    congr 1
    omega
  · simp only [Deque.pushLeft, h.physicalIndex_eq]
    exact h.holds.cons hlt v

/-- `_realloc`: growing means full, shrinking that the elements fit. -/
theorem realloc {newCapacity : ℕ} (hpower : ∃ k, newCapacity = 2 ^ k)
    (hfull : l.length = d.capacity → d.capacity < newCapacity) (hfit : l.length < d.capacity → l.length < newCapacity)
    (hempty : l.length = 0 → newCapacity ≤ d.capacity) : Layout (d.realloc newCapacity) l ∧ l.length < newCapacity := by
  have hle := h.length_le
  have hlen : (if d.head = d.tail ∧ newCapacity > d.capacity then d.capacity else d.len) = l.length := by
    rcases lt_or_ge l.length d.capacity with hlt | hge
    · rw [if_neg, h.len_eq hlt]
      rintro ⟨heq, hgrow⟩
      have := hempty ((h.head_eq_tail_iff.mp heq).resolve_right hlt.ne)
      omega
    · have heq : l.length = d.capacity := by omega
      rw [if_pos ⟨h.head_eq_tail_iff.mpr (.inr heq), hfull heq⟩, heq]
  have hlt : l.length < newCapacity := by
    rcases lt_or_ge l.length d.capacity with hlt | hge
    · exact hfit hlt
    · omega
  refine ⟨?_, hlt⟩
  have hhead := h.head_lt
  unfold Deque.realloc
  simp only [hlen]
  refine @ofPosition _ l _ hpower 0 (wrap_of_lt (by simp only; omega)).symm ?_ hlt.le ?_
  · rw [zero_add, wrap_of_lt hlt]
  intro i hi
  have hcell := h.holds i hi
  simp only [zero_add]
  rw [wrap_of_lt (by omega), ← hcell]
  -- The cell of an element in the old buffer, in front of its end and behind it.
  have hfront : d.head + i < d.capacity → wrap d.capacity (d.head + i) = d.head + i :=
    fun h => wrap_of_lt h
  have hbeh : ∀ i : ℕ, d.capacity ≤ d.head + i → d.head + i < 2 * d.capacity →
      wrap d.capacity (d.head + i) = d.head + i - d.capacity := by
    intro i h h'
    have hwrap := @wrap_add_cap d.capacity (d.head + i - d.capacity)
    rw [sub_add_cancel] at hwrap
    rw [hwrap, ← @wrap_of_lt d.capacity (d.head + i - d.capacity) (by omega)]
    congr 1
    omega
  rcases lt_or_ge l.length (d.capacity - d.head) with hfits | hwraps
  · rw [if_pos hfits, if_pos hfits, hfront (by omega)]
    exact @copies_dst _ _ _ id _ _ _ (fun _ _ _ _ h => h) hi
  rw [if_neg (by omega), if_neg (by omega)]
  have htail : d.tail = d.head + l.length - d.capacity := h.tail_eq.trans (hbeh l.length (by omega) (by omega))
  rcases lt_or_ge i (d.capacity - d.head) with hi' | hi'
  · rw [copies_of_ne fun j _ => by omega, hfront (by omega)]
    exact @copies_dst _ _ _ id _ _ _ (fun _ _ _ _ h => h) hi'
  · rw [hbeh i (by omega) (by omega)]
    have hcopy := @copies_dst _ d.data id (d.capacity - d.head + ·) d.tail (i - (d.capacity - d.head))
      (copies (d.capacity - d.head) (d.head + ·) id d.data fun _ => none) (fun _ _ _ _ h => add_left_cancel h) (by omega)
    have hdst : d.capacity - d.head + (i - (d.capacity - d.head)) = i := by omega
    have hsrc : id (i - (d.capacity - d.head)) = d.head + i - d.capacity := by
      simp only [id_eq]
      omega
    rw [hsrc] at hcopy
    simpa [hdst] using hcopy

theorem grow (hne : l ≠ []) : Layout d.grow l ∧ l.length < d.grow.capacity := by
  have hlen : l.length ≠ 0 := fun h => hne (length_eq_zero_iff.mp h)
  have hdouble : d.capacity <<< 1 = 2 * d.capacity := by rw [Nat.shiftLeft_eq]; omega
  rw [Deque.grow]
  split_ifs with heq
  · obtain ⟨k, hk⟩ := h.power
    refine h.realloc ⟨k + 1, ?_⟩ (fun _ => by omega) (fun _ => by omega) (fun hzero => absurd hzero hlen)
    rw [hdouble, hk, pow_succ, mul_comm]
  · refine ⟨h, lt_of_le_of_ne h.length_le fun hfull => heq ?_⟩
    exact h.head_eq_tail_iff.mpr (.inr hfull)

theorem shrinkIfSparse (hlt : l.length < d.capacity) (hmin : 0 < d.minCapacity) :
    Layout d.shrinkIfSparse l ∧ l.length < d.shrinkIfSparse.capacity := by
  rw [Deque.shrinkIfSparse]
  split_ifs with hsparse
  · obtain ⟨-, hlarge, hfew⟩ := hsparse
    obtain ⟨k, hk⟩ := h.power
    have hhalf : d.capacity >>> 1 = d.capacity / 2 := shiftRight_one _
    rw [h.len_eq hlt] at hfew
    rcases k with _ | k
    · omega
    have hnew : d.capacity / 2 = 2 ^ k := by
      rw [hk, Nat.pow_succ]
      exact Nat.mul_div_cancel _ Nat.two_pos
    exact h.realloc ⟨k, hhalf.trans hnew⟩ (fun heq => by omega) (fun _ => by omega) (fun _ => by omega)
  · exact ⟨h, hlt⟩

theorem prepareForNewElements {nTotal : ℕ} (hle : l.length ≤ nTotal) :
    Layout (d.prepareForNewElements nTotal l.length) l ∧ nTotal < (d.prepareForNewElements nTotal l.length).capacity := by
  have hpower : ∃ k, (d.prepareForNewElements nTotal l.length).capacity = 2 ^ k := (roomy_spec nTotal).1
  have hcap : nTotal < (d.prepareForNewElements nTotal l.length).capacity := (roomy_spec nTotal).2
  refine ⟨@ofPosition _ l _ hpower 0 (wrap_of_lt (zero_lt_of_lt hcap)).symm ?_ (hle.trans hcap.le) ?_, hcap⟩
  · rw [zero_add]
    exact (wrap_of_lt (hle.trans_lt hcap)).symm
  · intro i hi
    have hcopy : (d.prepareForNewElements nTotal l.length).data (id i) = d.data (d.physicalIndex (d.head + i)) :=
      copies_dst (fun _ _ _ _ h => h) hi
    rw [zero_add, wrap_of_lt (hi.trans (hle.trans_lt hcap)), ← h.holds i hi, ← h.physicalIndex_eq]
    exact hcopy

theorem physicalIndex_add (i j : ℤ) : d.physicalIndex (d.physicalIndex i + j) = wrap d.capacity (i + j) := by
  rw [h.physicalIndex_eq, h.physicalIndex_eq, wrap_wrap_add h.pos]

theorem physicalIndex_sub_one (i : ℤ) : d.physicalIndex (d.physicalIndex i - 1) = wrap d.capacity (i - 1) := by
  exact h.physicalIndex_add i (-1)

end

section

variable (h : Layout d l) (hlt : l.length < d.capacity) {idx : ℕ}
include h hlt

theorem makeRoom_left (hhalf : idx ≤ l.length / 2) :
    d.makeRoom idx = { d with
      data := moves (range idx) (fun i => wrap d.capacity (d.head + i)) (fun i => wrap d.capacity (d.head + i - 1)) d.data
      head := wrap d.capacity (d.head - 1) } := by
  rw [makeRoom, h.len_eq hlt, if_pos hhalf]
  simp only [h.physicalIndex_sub_one]
  simp [h.physicalIndex_eq]

theorem makeRoom_right (hhalf : ¬idx ≤ l.length / 2) :
    d.makeRoom idx = { d with
      data := moves (range (l.length - idx)) (fun i => wrap d.capacity (d.head + l.length - i - 1))
        (fun i => wrap d.capacity (d.head + l.length - i)) d.data
      tail := wrap d.capacity (d.head + l.length + 1) } := by
  rw [makeRoom, h.len_eq hlt, if_neg hhalf]
  have hsrc : ∀ i : ℕ, d.physicalIndex (d.physicalIndex (d.tail - i) - 1) =
      wrap d.capacity (d.head + l.length - i - 1) := by
    intro i
    rw [h.physicalIndex_tail_sub, h.physicalIndex_eq, sub_eq_add_neg, wrap_wrap_add h.pos, ← sub_eq_add_neg]
  simp only [hsrc]
  simp [h.physicalIndex_tail_sub, h.physicalIndex_tail_add]

theorem makeRoom (hidx : idx ≤ l.length) (v : α) :
    Layout { d.makeRoom idx with
      data := (d.makeRoom idx).data.write ((d.makeRoom idx).physicalIndex ((d.makeRoom idx).head + idx)) v }
      (l.insertIdx idx v) := by
  have hlen : (l.insertIdx idx v).length = l.length + 1 := length_insertIdx_of_le_length hidx v
  rcases lt_or_ge (l.length / 2) idx with hhalf | hhalf
  · rw [h.makeRoom_right hlt (not_le.mpr hhalf)]
    have hgap : ∀ (data : Cells α) (tail : ℕ), physicalIndex { d with data := data, tail := tail } (d.head + idx) =
        wrap d.capacity (d.head + idx) := fun _ _ => h.physicalIndex_eq _
    refine @ofPosition _ _ _ h.power d.head h.wrap_head.symm ?_ (by rw [hlen]; exact hlt) ?_
    · simp only [hlen]
      congr 1
    · simp only [hgap]
      exact h.holds.insertRight hlt hidx v
  · rw [h.makeRoom_left hlt hhalf]
    have hgap : ∀ (data : Cells α) (head : ℕ), physicalIndex { d with data := data, head := head }
        (wrap d.capacity (d.head - 1) + idx) = wrap d.capacity (d.head - 1 + idx) := by
      intro _ _
      exact (h.physicalIndex_eq _).trans (wrap_wrap_add h.pos _ _)
    refine @ofPosition _ _ _ h.power (d.head - 1) rfl ?_ (by rw [hlen]; exact hlt) ?_
    · simp only [h.tail_eq, hlen]
      congr 1
      omega
    · simp only [hgap]
      exact h.holds.insertLeft hlt hidx v

theorem closeGap (hidx : idx < l.length) : Layout (d.closeGap idx) (l.eraseIdx idx) := by
  have hlen : (l.eraseIdx idx).length = l.length - 1 := length_eraseIdx_of_lt hidx
  rw [Deque.closeGap, h.len_eq hlt]
  split_ifs with hhalf
  · simp only [h.physicalIndex_add]
    simp only [h.physicalIndex_eq]
    refine @ofPosition _ _ _ h.power (d.head + 1) rfl ?_ (by simp only [hlen]; omega) ?_
    · simp only [h.tail_eq, hlen]
      congr 1
      omega
    · exact h.holds.eraseLeft hlt.le hidx
  · simp only [h.physicalIndex_sub_one]
    simp only [h.physicalIndex_tail_sub, h.physicalIndex_eq]
    refine @ofPosition _ _ _ h.power d.head h.wrap_head.symm ?_ (by simp only [hlen]; omega) ?_
    · simp only [hlen]
      congr 1
      omega
    · exact h.holds.eraseRight hlt.le hidx

theorem reverse : Layout d.reverse l.reverse := by
  rw [Deque.reverse, h.len_eq hlt]
  simp only [h.physicalIndex_eq]
  refine @ofPosition _ _ _ h.power d.head h.wrap_head.symm ?_ (by simp only [length_reverse]; omega) ?_
  · simp [h.tail_eq]
  · exact h.holds.reverse hlt.le

theorem rotateLeft : Layout d.rotateLeft (l.rotate 1) := by
  refine @ofPosition _ _ _ h.power (d.head + 1) (h.physicalIndex_eq _) ?_ (by rw [length_rotate]; exact hlt.le) ?_
  · simp only [Deque.rotateLeft, h.physicalIndex_tail_add, length_rotate]
    congr 1
    omega
  · rcases l with _ | ⟨a, l⟩
    · exact holds_nil
    · have hmoved := h.holds.rotateLeft hlt
      have htail : d.tail = wrap d.capacity (d.head + 1 + l.length) := by
        rw [h.tail_eq, length_cons]
        congr 1
        omega
      rw [h.wrap_head, ← htail] at hmoved
      rw [rotate_cons_succ, rotate_zero]
      exact hmoved

theorem rotateRight : Layout d.rotateRight (l.rotate (l.length - 1)) := by
  refine @ofPosition _ _ _ h.power (d.head - 1) (h.physicalIndex_eq _) ?_ (by rw [length_rotate]; exact hlt.le) ?_
  · simp only [Deque.rotateRight, h.physicalIndex_tail_sub, length_rotate]
    congr 1
    omega
  · rcases eq_nil_or_concat' l with rfl | ⟨l, a, rfl⟩
    · exact holds_nil
    · rw [length_append, length_singleton] at hlt
      have hmoved := h.holds.rotateRight hlt
      rw [← h.physicalIndex_last, ← h.physicalIndex_eq] at hmoved
      rw [length_append, length_singleton, Nat.add_sub_cancel, rotate_append_length_eq]
      exact hmoved

end

end Layout

end MojoProse.Stdlib
