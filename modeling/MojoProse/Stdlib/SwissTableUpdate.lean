import MojoProse.Stdlib.SwissTableFind

/-! Changes of one slot of a `SwissTable`: a new entry, an entry in the place of another, a tombstone. -/

namespace MojoProse.Stdlib.SwissTable

open Schemes Function

variable {K V : Type}

/-- The control bytes after one is set, in the mirror too. -/
def mirrored (capacity : ℕ) (ctrl : ℕ → UInt8) (index : ℕ) (value : UInt8) : ℕ → UInt8 :=
  if index < groupWidth then update (update ctrl index value) (capacity + index) value
  else update ctrl index value

variable {i capacity : ℕ}

theorem mirrored_of_lt (ctrl : ℕ → UInt8) (s : ℕ) (value : UInt8) (hi : i < capacity) :
    mirrored capacity ctrl s value i = if i = s then value else ctrl i := by
  unfold mirrored
  split
  · rw [update_of_ne (by omega), update_apply]
  · rw [update_apply]

theorem mirrored_add {s : ℕ} (ctrl : ℕ → UInt8) (hs : s < capacity) (value : UInt8) {b : ℕ}
    (hb : b < groupWidth) : mirrored capacity ctrl s value (capacity + b) = if b = s then value else ctrl (capacity + b) := by
  unfold mirrored
  rcases eq_or_ne b s with rfl | hne
  · rw [if_pos hb, update_self, if_pos rfl]
  · split
    · rw [update_of_ne (by omega), update_of_ne (by omega)]
    · rw [update_of_ne (by omega)]

/-- The table after `set_ctrl`. -/
def withCtrl (t : SwissTable K V) (index : ℕ) (value : UInt8) : SwissTable K V :=
  { t with ctrl := mirrored t.capacity t.ctrl index value }

variable {s : ℕ}

theorem setCtrl_ok (t : SwissTable K V) (hs : s < t.capacity) (value : UInt8) :
    t.setCtrl s value = .ok (t.withCtrl s value) := by
  rw [setCtrl, if_pos hs]
  rfl

theorem withCtrl_ctrl (t : SwissTable K V) (s : ℕ) (value : UInt8) (hi : i < t.capacity) :
    (t.withCtrl s value).ctrl i = if i = s then value else t.ctrl i := mirrored_of_lt t.ctrl s value hi

variable {t : SwissTable K V}

theorem Shape.withCtrl (h : t.Shape) (hs : s < t.capacity) (value : UInt8) : (t.withCtrl s value).Shape := by
  refine ⟨h.power, ?_⟩
  intro b hb
  have hwidth := h.groupWidth_le
  change mirrored t.capacity t.ctrl s value (t.capacity + b) = mirrored t.capacity t.ctrl s value b
  rw [mirrored_add t.ctrl hs value hb, mirrored_of_lt t.ctrl s value (by omega), h.mirror b hb]

section
variable (t : SwissTable K V)

def withEntry (s : ℕ) (entry : SwissTableEntry K V) : SwissTable K V :=
  (t.withCtrl s (h2 entry.hash)).writeSlot s entry

theorem place_ok (hs : s < t.capacity) (entry : SwissTableEntry K V) : t.place entry s = .ok (t.withEntry s entry) := by
  rw [place, setCtrl_ok t hs, ok_bind]
  rfl

theorem withEntry_ctrl (s : ℕ) (entry : SwissTableEntry K V) (hi : i < t.capacity) :
    (t.withEntry s entry).ctrl i = if i = s then h2 entry.hash else t.ctrl i := withCtrl_ctrl t s _ hi

theorem withEntry_slots (s : ℕ) (entry : SwissTableEntry K V) (i : ℕ) :
    (t.withEntry s entry).slots i = if i = s then some entry else t.slots i := update_apply ..

end

theorem Shape.withEntry (h : t.Shape) (hs : s < t.capacity)
    (entry : SwissTableEntry K V) : (t.withEntry s entry).Shape :=
  let h' := h.withCtrl hs (h2 entry.hash)
  ⟨h'.power, h'.mirror⟩

theorem Reach.withEntry {P : UInt8 → Prop} (hP : ∀ {c}, isOccupied c = true → P c) {hash : UInt64} {i : ℕ}
    (h : t.Reaches P hash i) (hpos : 0 < t.capacity) (s : ℕ) (entry : SwissTableEntry K V) :
    (t.withEntry s entry).Reaches P hash i := by
  refine h.mono (fun j hj hPj => ?_) hpos
  rw [withEntry_ctrl t s entry hj]
  split
  · exact hP (isOccupied_h2 _)
  · exact hPj

theorem entryAt_of_ge (hi : t.capacity ≤ i) : t.entryAt i = none := if_neg fun h => absurd h.1 (by omega)

theorem entryAt_withEntry (t : SwissTable K V) (hs : s < t.capacity) (entry : SwissTableEntry K V) (i : ℕ) :
    (t.withEntry s entry).entryAt i = if i = s then some entry else t.entryAt i := by
  rcases Nat.lt_or_ge i t.capacity with hi | hi
  · unfold entryAt
    rw [withEntry_ctrl t s entry hi, withEntry_slots]
    change (if i < t.capacity ∧ _ then _ else _) = _
    rcases eq_or_ne i s with rfl | hne
    · simp [hi, isOccupied_h2]
    · simp [hne]
  · rw [if_neg (by omega), entryAt_of_ge hi]
    exact entryAt_of_ge hi

section
variable (t : SwissTable K V) (len : ℕ) (growthLeft : ℤ)

/-- The same slots under other counts. -/
def counted : SwissTable K V := { t with len, growthLeft }

@[simp] theorem counted_capacity : (t.counted len growthLeft).capacity = t.capacity := rfl

@[simp] theorem counted_ctrl : (t.counted len growthLeft).ctrl = t.ctrl := rfl

@[simp] theorem counted_slots : (t.counted len growthLeft).slots = t.slots := rfl

@[simp] theorem counted_entryAt (i : ℕ) : (t.counted len growthLeft).entryAt i = t.entryAt i := rfl

end

theorem Shape.counted (h : t.Shape) (len : ℕ) (growthLeft : ℤ) : (t.counted len growthLeft).Shape := ⟨h.power, h.mirror⟩

section
variable (t : SwissTable K V) (s : ℕ)

@[simp] theorem withEntry_capacity (entry : SwissTableEntry K V) : (t.withEntry s entry).capacity = t.capacity := rfl

def withTombstone : SwissTable K V := (t.dropSlot s).withCtrl s ctrlDeleted

@[simp] theorem withTombstone_capacity : (t.withTombstone s).capacity = t.capacity := rfl

theorem withTombstone_ctrl (hi : i < t.capacity) :
    (t.withTombstone s).ctrl i = if i = s then ctrlDeleted else t.ctrl i := mirrored_of_lt t.ctrl s _ hi

end

theorem withTombstone_slots (t : SwissTable K V) (s i : ℕ) :
    (t.withTombstone s).slots i = if i = s then none else t.slots i := update_apply ..

theorem Shape.withTombstone (h : t.Shape) (hs : s < t.capacity) : (t.withTombstone s).Shape :=
  let h' := h.withCtrl hs ctrlDeleted
  ⟨h'.power, h'.mirror⟩

theorem entryAt_withTombstone (t : SwissTable K V) (s i : ℕ) :
    (t.withTombstone s).entryAt i = if i = s then none else t.entryAt i := by
  rcases Nat.lt_or_ge i t.capacity with hi | hi
  · unfold entryAt
    rw [withTombstone_ctrl t s hi, withTombstone_slots]
    rcases eq_or_ne i s with rfl | hne
    · simp
    · simp [hne]
  · rw [entryAt_of_ge hi, ite_self]
    exact entryAt_of_ge hi

variable {entry old : SwissTableEntry K V}

theorem entryAt_writeSlot (hold : t.entryAt s = some old) (entry : SwissTableEntry K V) (i : ℕ) :
    (t.writeSlot s entry).entryAt i = if i = s then some entry else t.entryAt i := by
  obtain ⟨hs, hocc, -⟩ := entryAt_eq_some.1 hold
  unfold entryAt writeSlot
  rcases eq_or_ne i s with rfl | hne
  · simp [hs, hocc]
  · simp [hne]

variable [BEq K] [Hashable K]

/-- A new key comes into an empty slot that a search for it reaches. -/
theorem Sound.insert [EquivBEq K] (h : t.Sound)
    (hs : s < t.capacity) (hempty : t.ctrl s = ctrlEmpty) (hhash : entry.hash = hash entry.key)
    (hreach : t.Reaches (· ≠ ctrlEmpty) entry.hash s)
    (hnew : ∀ i entry', t.entryAt i = some entry' → (entry'.key == entry.key) = false) (hroom : 0 < t.growthLeft) :
    Sound ((t.withEntry s entry).counted (t.len + 1) (t.growthLeft - 1)) := by
  have hctrl := fun {i} (hi : i < t.capacity) => withEntry_ctrl t s entry hi
  have hat := entryAt_withEntry t hs entry
  have hnotOcc : ¬ isOccupied (t.ctrl s) = true := by simp [hempty, isOccupied_empty]
  refine ⟨(h.shape.withEntry hs entry).counted .., ?_, ?_, ?_, ?_, ?_, ?_, ?_⟩
  · intro i hi hocc
    rw [counted_ctrl, hctrl hi] at hocc ⊢
    rcases eq_or_ne i s with rfl | hne
    · rw [if_pos rfl, isOccupied_h2] at hocc
      cases hocc
    · rw [if_neg hne] at hocc ⊢
      exact h.special i hi hocc
  · intro i hi hocc
    rw [counted_ctrl, hctrl hi] at hocc
    rw [counted_ctrl, hctrl hi, counted_slots, withEntry_slots]
    rcases eq_or_ne i s with rfl | hne
    · exact ⟨entry, if_pos rfl, if_pos rfl, hhash⟩
    · simp only [if_neg hne] at hocc ⊢
      exact h.entry i hi hocc
  · intro i j entry1 entry2 hi hj hkey
    rw [counted_entryAt, hat] at hi hj
    split at hi
    · rename_i his
      cases hi
      split at hj
      · rename_i hjs
        rw [his, hjs]
      · rw [BEq.comm, hnew j entry2 hj] at hkey
        cases hkey
    · split at hj
      · cases hj
        rw [hnew i entry1 hi] at hkey
        cases hkey
      · exact h.unique i j entry1 entry2 hi hj hkey
  · intro i entry' hi
    rw [counted_entryAt, hat] at hi
    split at hi
    · rename_i his
      cases hi
      rw [his]
      exact Reach.withEntry ne_empty_of_isOccupied hreach h.shape.pos ..
    · exact Reach.withEntry ne_empty_of_isOccupied (h.reach i entry' hi) h.shape.pos ..
  · change t.len + 1 = slotCount t.capacity fun i => isOccupied ((t.withEntry s entry).ctrl i) = true
    rw [h.len]
    refine (slotCount_insert hs hnotOcc ?_ ?_).symm
    · rw [hctrl hs, if_pos rfl]
      exact isOccupied_h2 _
    · intro i hi hne
      rw [hctrl hi, if_neg hne]
  · have hcnt : slotCount t.capacity (fun i => (t.withEntry s entry).ctrl i ≠ ctrlEmpty) =
        slotCount t.capacity (fun i => t.ctrl i ≠ ctrlEmpty) + 1 := by
      refine slotCount_insert hs (by simp [hempty]) ?_ ?_
      · rw [hctrl hs, if_pos rfl]
        exact ne_empty_of_isOccupied (isOccupied_h2 _)
      · intro i hi hne
        rw [hctrl hi, if_neg hne]
    have hgrow := h.growth
    change t.growthLeft - 1 + (slotCount t.capacity (fun i => (t.withEntry s entry).ctrl i ≠ ctrlEmpty) : ℕ) =
      (t.capacity * 7 / 8 : ℕ)
    omega
  · change 0 ≤ t.growthLeft - 1
    omega

/-- An entry takes the place of one with an equal key. -/
theorem Sound.overwrite [EquivBEq K] [LawfulHashable K] (h : t.Sound)
    (hold : t.entryAt s = some old) (hkey : (old.key == entry.key) = true)
    (hhash : entry.hash = hash entry.key) : Sound (t.writeSlot s entry) := by
  have hat := entryAt_writeSlot hold entry
  obtain ⟨hs, hocc, hslot, hbyte, holdHash⟩ := h.slots_of_entryAt hold
  have hsame : entry.hash = old.hash := by rw [hhash, holdHash, hash_eq hkey]
  -- The key of a slot is equal to the one that was there before.
  have hback : ∀ i e, (t.writeSlot s entry).entryAt i = some e →
      ∃ e', t.entryAt i = some e' ∧ (e'.key == e.key) = true ∧ e'.hash = e.hash := by
    intro i e hi
    rw [hat] at hi
    split at hi
    · rename_i his
      cases hi
      exact ⟨old, his ▸ hold, hkey, hsame.symm⟩
    · exact ⟨e, hi, BEq.refl _, rfl⟩
  refine ⟨⟨h.shape.power, h.shape.mirror⟩, h.special, ?_, ?_, ?_, h.len, h.growth, h.room⟩
  · intro i hi hocc'
    rcases eq_or_ne i s with rfl | hne
    · exact ⟨entry, update_self .., by rw [hsame]; exact hbyte, hhash⟩
    · obtain ⟨e, he, hrest⟩ := h.entry i hi hocc'
      exact ⟨e, (update_of_ne hne ..).trans he, hrest⟩
  · intro i j e1 e2 hi hj hkeys
    obtain ⟨e1', hi', hk1, -⟩ := hback i e1 hi
    obtain ⟨e2', hj', hk2, -⟩ := hback j e2 hj
    exact h.unique i j e1' e2' hi' hj' (BEq.trans (BEq.trans hk1 hkeys) (BEq.symm hk2))
  · intro i e hi
    obtain ⟨e', hi', -, hhash'⟩ := hback i e hi
    have hreach := h.reach i e' hi'
    rw [hhash'] at hreach
    exact hreach

/-- An entry is taken out; its slot is a tombstone, so that searches still pass it. -/
theorem Sound.delete (h : t.Sound)
    (hold : t.entryAt s = some old) : Sound ((t.withTombstone s).counted (t.len - 1) t.growthLeft) := by
  obtain ⟨hs, hocc, -⟩ := entryAt_eq_some.1 hold
  have hctrl := fun {i} (hi : i < t.capacity) => withTombstone_ctrl t s hi
  have hat := entryAt_withTombstone t s
  have hempty : ∀ i < t.capacity, (t.withTombstone s).ctrl i ≠ ctrlEmpty ↔ t.ctrl i ≠ ctrlEmpty := by
    intro i hi
    rw [hctrl hi]
    rcases eq_or_ne i s with rfl | hne
    · rw [if_pos rfl]
      exact iff_of_true deleted_ne_empty (ne_empty_of_isOccupied hocc)
    · rw [if_neg hne]
  refine ⟨(h.shape.withTombstone hs).counted .., ?_, ?_, ?_, ?_, ?_, ?_, h.room⟩
  · intro i hi hocc'
    rw [counted_ctrl, hctrl hi] at hocc' ⊢
    rcases eq_or_ne i s with rfl | hne
    · exact .inr (if_pos rfl)
    · rw [if_neg hne] at hocc' ⊢
      exact h.special i hi hocc'
  · intro i hi hocc'
    rw [counted_ctrl, hctrl hi] at hocc'
    rw [counted_ctrl, hctrl hi, counted_slots, withTombstone_slots]
    rcases eq_or_ne i s with rfl | hne
    · rw [if_pos rfl, isOccupied_deleted] at hocc'
      cases hocc'
    · simp only [if_neg hne] at hocc' ⊢
      exact h.entry i hi hocc'
  · intro i j e1 e2 hi hj hkeys
    rw [counted_entryAt, hat] at hi hj
    split at hi
    · cases hi
    · split at hj
      · cases hj
      · exact h.unique i j e1 e2 hi hj hkeys
  · intro i e hi
    rw [counted_entryAt, hat] at hi
    split at hi
    · cases hi
    · exact (h.reach i e hi).mono (fun i hi hne => (hempty i hi).2 hne) h.shape.pos
  · change t.len - 1 = slotCount t.capacity fun i => isOccupied ((t.withTombstone s).ctrl i) = true
    have hcnt : slotCount t.capacity (fun i => isOccupied (t.ctrl i) = true) =
        slotCount t.capacity (fun i => isOccupied ((t.withTombstone s).ctrl i) = true) + 1 := by
      refine slotCount_insert hs ?_ hocc ?_
      · rw [hctrl hs, if_pos rfl, isOccupied_deleted]
        simp
      · intro i hi hne
        rw [hctrl hi, if_neg hne]
    rw [h.len, hcnt]
    omega
  · change t.growthLeft + (slotCount t.capacity (fun i => (t.withTombstone s).ctrl i ≠ ctrlEmpty) : ℕ) = _
    rw [slotCount_congr hempty]
    exact h.growth

theorem Sound.allocated {n : ℕ} (hn : 4 ≤ n) (hcap : capacity = 2 ^ n) :
    Sound (allocated capacity 0 : SwissTable K V) := by
  have hempty : ∀ P : UInt8 → Prop, ¬ P ctrlEmpty → slotCount capacity (fun _ => P ctrlEmpty) = 0 := by
    intro P hP
    refine Nat.eq_zero_of_le_zero ?_
    simp [slotCount, hP]
  refine ⟨⟨⟨n, hn, hcap⟩, fun _ _ => rfl⟩, fun _ _ _ => .inl rfl, ?_, ?_, ?_, ?_, ?_, ?_⟩
  · intro i _ hocc
    cases hocc
  · intro i j e e' hi
    obtain ⟨_, _, hslot⟩ := entryAt_eq_some.1 hi
    cases hslot
  · intro i e hi
    obtain ⟨_, _, hslot⟩ := entryAt_eq_some.1 hi
    cases hslot
  · exact (hempty (fun c => isOccupied c = true) (by simp [isOccupied_empty])).symm
  · change (capacity * 7 / 8 - (0 : ℕ) : ℤ) + (slotCount capacity (fun _ => ctrlEmpty ≠ ctrlEmpty) : ℕ) =
      (capacity * 7 / 8 : ℕ)
    rw [hempty (· ≠ ctrlEmpty) (by simp)]
    omega
  · change (0 : ℤ) ≤ capacity * 7 / 8 - (0 : ℕ)
    omega

section Copy

omit [BEq K] [Hashable K]

theorem copy_ctrl (hpos : 0 < t.capacity) : t.copy.ctrl = t.ctrl ∧ t.copy.capacity = t.capacity := by
  rw [copy, if_neg (by omega)]
  exact ⟨rfl, rfl⟩

theorem entryAt_copy (hpos : 0 < t.capacity) (i : ℕ) : t.copy.entryAt i = t.entryAt i := by
  rw [copy, if_neg (by omega)]
  unfold entryAt
  simp only
  split
  · rfl
  · rfl

end Copy

theorem Sound.copy (h : t.Sound) : t.copy.Sound := by
  have hat := entryAt_copy h.shape.pos
  rw [SwissTable.copy, if_neg (Nat.ne_of_gt h.shape.pos)] at hat ⊢
  refine ⟨⟨h.shape.power, h.shape.mirror⟩, h.special, ?_, ?_, ?_, h.len, h.growth, h.room⟩
  · intro i hi hocc
    obtain ⟨entry, hslot, hrest⟩ := h.entry i hi hocc
    exact ⟨entry, (if_pos ⟨hi, hocc⟩).trans hslot, hrest⟩
  · intro i j entry entry' hi hj
    exact h.unique i j entry entry' ((hat i).symm.trans hi) ((hat j).symm.trans hj)
  · intro i entry hi
    exact h.reach i entry ((hat i).symm.trans hi)

end MojoProse.Stdlib.SwissTable
