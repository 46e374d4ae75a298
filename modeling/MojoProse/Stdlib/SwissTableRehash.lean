import MojoProse.Schemes.Loop
import MojoProse.Stdlib.SwissTableUpdate

/-! `SwissTable.resize` and `SwissTable.rehash_in_place`: every entry goes to the first free slot that its hash reaches,
    and the caller learns where it is now. -/

namespace MojoProse.Stdlib.SwissTable

open Schemes Function List

variable {K V : Type}

/-- The entries of `old` from the slots in `P` stand in `t` where `m` says, reached past occupied slots only. No other
    slot is occupied. -/
structure Placed (old : SwissTable K V) (P : ℕ → Prop) (m : ℕ → ℕ) (t : SwissTable K V) : Prop where
  shape : t.Shape
  origin : ∀ o, P o → ∃ entry, old.entryAt o = some entry
  entry : ∀ o entry, P o → old.entryAt o = some entry → t.entryAt (m o) = some entry ∧
    t.ctrl (m o) = h2 entry.hash ∧ t.Reaches (fun c => isOccupied c = true) entry.hash (m o)
  inj : ∀ o o', P o → P o' → m o = m o' → o = o'
  occupied : ∀ i < t.capacity, isOccupied (t.ctrl i) = true → ∃ o, P o ∧ m o = i

variable {entry : SwissTableEntry K V}

namespace Placed

variable {old t : SwissTable K V} {P : ℕ → Prop} {m : ℕ → ℕ}

variable (h : Placed old P m t)
include h

theorem lt_capacity {o : ℕ} (ho : P o) : o < old.capacity := by
  obtain ⟨entry, hat⟩ := h.origin o ho
  exact (entryAt_eq_some.1 hat).1

theorem map_occupied {o : ℕ} (ho : P o) : m o < t.capacity ∧ isOccupied (t.ctrl (m o)) = true := by
  obtain ⟨entry, hat⟩ := h.origin o ho
  obtain ⟨hlt, hocc, -⟩ := entryAt_eq_some.1 (h.entry o entry ho hat).1
  exact ⟨hlt, hocc⟩

theorem count : slotCount old.capacity P = slotCount t.capacity fun i => isOccupied (t.ctrl i) = true := by
  refine slotCount_eq_of_map m (fun o _ ho => h.map_occupied ho) h.inj ?_
  intro i hi hocc
  obtain ⟨o, ho, rfl⟩ := h.occupied i hi hocc
  exact ⟨o, h.lt_capacity ho, ho, rfl⟩

theorem place {o s : ℕ} (hnew : ¬ P o)
    (hat : old.entryAt o = some entry) (hs : s < t.capacity) (hfree : isOccupied (t.ctrl s) = false)
    (hreach : t.Reaches (fun c => isOccupied c = true) entry.hash s) :
    Placed old (fun o' => o' = o ∨ P o') (update m o s) (t.withEntry s entry) := by
  have hctrl := fun {i} (hi : i < t.capacity) => withEntry_ctrl t s entry hi
  have hold : ∀ o', P o' → update m o s o' = m o' ∧ m o' ≠ s := by
    intro o' ho'
    constructor
    · refine update_of_ne ?_ ..
      rintro rfl
      exact hnew ho'
    · rintro rfl
      rw [(h.map_occupied ho').2] at hfree
      cases hfree
  refine ⟨h.shape.withEntry hs entry, ?_, ?_, ?_, ?_⟩
  · rintro o' (rfl | ho')
    · exact ⟨entry, hat⟩
    · exact h.origin o' ho'
  · rintro o' entry' (rfl | ho') hat'
    · rw [hat] at hat'
      cases hat'
      rw [update_self, entryAt_withEntry t hs, hctrl hs, if_pos rfl, if_pos rfl]
      exact ⟨rfl, rfl, Reach.withEntry id hreach h.shape.pos ..⟩
    · obtain ⟨hent, hbyte, hreach'⟩ := h.entry o' entry' ho' hat'
      obtain ⟨hsame, hne⟩ := hold o' ho'
      rw [hsame, entryAt_withEntry t hs, hctrl (h.map_occupied ho').1, if_neg hne, if_neg hne]
      exact ⟨hent, hbyte, Reach.withEntry id hreach' h.shape.pos ..⟩
  · rintro o1 o2 (rfl | h1) (rfl | h2) heq
    · rfl
    · rw [update_self, (hold o2 h2).1] at heq
      exact absurd heq.symm (hold o2 h2).2
    · rw [update_self, (hold o1 h1).1] at heq
      exact absurd heq (hold o1 h1).2
    · rw [(hold o1 h1).1, (hold o2 h2).1] at heq
      exact h.inj o1 o2 h1 h2 heq
  · intro i hi hocc
    rw [hctrl hi] at hocc
    rcases eq_or_ne i s with rfl | hne
    · exact ⟨o, .inl rfl, update_self ..⟩
    · rw [if_neg hne] at hocc
      obtain ⟨o', ho', rfl⟩ := h.occupied i hi hocc
      exact ⟨o', .inr ho', (hold o' ho').1⟩

end Placed

variable {t old : SwissTable K V} {P : ℕ → Prop} {m : ℕ → ℕ} {i : ℕ}

/-- The relocations of the first `i` slots. -/
def relocationsTo (old : SwissTable K V) (m : ℕ → ℕ) (i : ℕ) : List (ℕ × ℕ) :=
  ((range i).filter fun o => isOccupied (old.ctrl o)).map fun o => (o, m o)

theorem relocationsTo_update (old : SwissTable K V) (m : ℕ → ℕ) (i s : ℕ) :
    old.relocationsTo (update m i s) i = old.relocationsTo m i := by
  refine map_congr_left ?_
  intro o ho
  have hlt := mem_range.1 (mem_filter.1 ho).1
  rw [update_of_ne (by omega)]

theorem below_succ (S : ℕ → Prop) (i : ℕ) : (fun o => o < i + 1 ∧ S o) = fun o => (o = i ∧ S i) ∨ (o < i ∧ S o) := by
  funext o
  rcases eq_or_ne o i with rfl | hne
  · simp
  · rw [show (o < i + 1) = (o < i) from propext (by omega)]
    simp [hne]

theorem markAll_fold (ctrl : ℕ → UInt8) (n i : ℕ) : (range n).foldl (fun (ctrl : ℕ → UInt8) (g : ℕ) i =>
      if groupWidth * g ≤ i ∧ i < groupWidth * g + groupWidth then
        Group.convertSpecialToEmptyAndFullToDeleted (fun bit => ctrl (groupWidth * g + bit)) (i - groupWidth * g)
      else ctrl i) ctrl i =
    if i < groupWidth * n then (if ctrl i < ctrlDeleted then ctrlDeleted else ctrlEmpty) else ctrl i := by
  induction n with
  | zero => rfl
  | succ n ih =>
    have hnext : groupWidth * (n + 1) = groupWidth * n + groupWidth := rfl
    rw [range_succ, foldl_append, foldl_cons, foldl_nil, hnext]
    rcases Nat.lt_or_ge i (groupWidth * n) with hlt | hge
    · rw [if_neg (by omega), ih, if_pos hlt, if_pos (show i < groupWidth * n + groupWidth by omega)]
    · rcases Nat.lt_or_ge i (groupWidth * n + groupWidth) with hin | hout
      · rw [if_pos ⟨hge, hin⟩, if_pos hin, Group.convertSpecialToEmptyAndFullToDeleted, Nat.add_sub_cancel' hge, ih,
          if_neg (Nat.not_lt.2 hge)]
      · rw [if_neg (by omega), ih, if_neg (by omega), if_neg (by omega)]

/-- Every entry is marked as one that has not moved yet; the other slots are empty. -/
theorem Shape.markAll_ctrl (h : t.Shape) (hi : i < t.capacity) :
    t.markAll.ctrl i = if isOccupied (t.ctrl i) = true then ctrlDeleted else ctrlEmpty := by
  have hgroups : groupWidth * (t.capacity / groupWidth) = t.capacity := Nat.mul_div_cancel' h.groupWidth_dvd
  have hread := markAll_fold t.ctrl (t.capacity / groupWidth) i
  rw [hgroups, if_pos hi] at hread
  simp only [markAll]
  rw [if_neg (by omega), hread]
  simp [isOccupied]

theorem Shape.markAll (h : t.Shape) : t.markAll.Shape := by
  refine ⟨h.power, ?_⟩
  intro b hb
  have hwidth := h.groupWidth_le
  simp only [SwissTable.markAll]
  rw [if_pos (by omega), Nat.add_sub_cancel_left, if_neg (by omega)]

/-- A marked slot has its old, unmoved entry; the entry from `hand` is in no slot. The slots before `i` are done. -/
structure Rehashing (old : SwissTable K V) (P : ℕ → Prop) (m : ℕ → ℕ) (hand : Option ℕ) (i : ℕ) (t : SwissTable K V)
    (slotMap : ℕ → Int32) : Prop where
  placed : Placed old P m t
  rest : ∀ j < t.capacity, isOccupied (t.ctrl j) = false → t.ctrl j = ctrlEmpty ∨
    t.ctrl j = ctrlDeleted ∧ ¬ P j ∧ ∃ entry, old.entryAt j = some entry ∧ t.slots j = some entry
  all : ∀ o entry, old.entryAt o = some entry → P o ∨ t.ctrl o = ctrlDeleted ∨ hand = some o
  held : ∀ o, hand = some o → ¬ P o ∧ t.ctrl o ≠ ctrlDeleted
  passed : ∀ j < t.capacity, j < i → t.ctrl j ≠ ctrlDeleted
  map : ∀ o, P o → slotMap o = Int32.ofNat (m o)
  capacity : t.capacity = old.capacity
  len : t.len = old.len

variable {slotMap : ℕ → Int32}

theorem Rehashing.marked_entry {hand : Option ℕ} (h : Rehashing old P m hand i t slotMap) {j : ℕ} (hj : j < t.capacity)
    (hbyte : t.ctrl j = ctrlDeleted) : ¬ P j ∧ ∃ entry, old.entryAt j = some entry ∧ t.slots j = some entry := by
  rcases h.rest j hj (by rw [hbyte, isOccupied_deleted]) with hempty | ⟨-, hrest⟩
  · rw [hbyte] at hempty
    exact absurd hempty deleted_ne_empty
  · exact hrest

/-- The entry in hand goes to a free slot; the one that was marked there is in hand then. -/
theorem Rehashing.place {source target : ℕ} (h : Rehashing old P m (some source) i t slotMap)
    (hat : old.entryAt source = some entry) (htgt : target < t.capacity) (hfree : isOccupied (t.ctrl target) = false)
    (hreach : t.Reaches (fun c => isOccupied c = true) entry.hash target) :
    Rehashing old (fun o => o = source ∨ P o) (update m source target)
      (if t.ctrl target = ctrlDeleted then some target else none) i (t.withEntry target entry)
      (update slotMap source (Int32.ofNat target)) := by
  obtain ⟨hnew, hsource⟩ := h.held source rfl
  have hctrl := fun {j} (hj : j < t.capacity) => withEntry_ctrl t target entry hj
  have hdeleted : ∀ j < t.capacity, (t.withEntry target entry).ctrl j = ctrlDeleted ↔
      j ≠ target ∧ t.ctrl j = ctrlDeleted := by
    intro j hj
    rw [hctrl hj]
    rcases eq_or_ne j target with rfl | hne
    · rw [if_pos rfl]
      exact iff_of_false (ne_deleted_of_isOccupied (isOccupied_h2 _)) (fun h => h.1 rfl)
    · rw [if_neg hne]
      exact ⟨fun h => ⟨hne, h⟩, fun h => h.2⟩
  -- A marked slot is not one of those whose entry has moved, the last one included.
  have hmark : ∀ j < t.capacity, t.ctrl j = ctrlDeleted → ¬ (j = source ∨ P j) ∧
      ∃ entry, old.entryAt j = some entry ∧ t.slots j = some entry := by
    intro j hj hbyte
    obtain ⟨hP, hent⟩ := h.marked_entry hj hbyte
    refine ⟨?_, hent⟩
    rintro (rfl | hP')
    · exact hsource hbyte
    · exact hP hP'
  refine ⟨h.placed.place hnew hat htgt hfree hreach, ?_, ?_, ?_, ?_, ?_, h.capacity, h.len⟩
  · intro j hj hocc
    have hne : j ≠ target := by
      rintro rfl
      rw [hctrl hj, if_pos rfl, isOccupied_h2] at hocc
      cases hocc
    rw [hctrl hj, if_neg hne] at hocc ⊢
    rw [withEntry_slots, if_neg hne]
    rcases h.rest j hj hocc with hempty | ⟨hbyte, -⟩
    · exact .inl hempty
    · exact .inr ⟨hbyte, hmark j hj hbyte⟩
  · intro o entry' ho
    have hlt : o < t.capacity := h.capacity ▸ (entryAt_eq_some.1 ho).1
    rcases h.all o entry' ho with hP | hbyte | hhand
    · exact .inl (.inr hP)
    · rcases eq_or_ne o target with rfl | hne
      · exact .inr (.inr (if_pos hbyte))
      · exact .inr (.inl ((hdeleted o hlt).2 ⟨hne, hbyte⟩))
    · cases hhand
      exact .inl (.inl rfl)
  · intro o ho
    split at ho
    · rename_i hbyte
      cases ho
      exact ⟨(hmark target htgt hbyte).1, fun hbyte' => ((hdeleted target htgt).1 hbyte').1 rfl⟩
    · cases ho
  · intro j hj hji hbyte
    exact h.passed j hj hji ((hdeleted j hj).1 hbyte).2
  · rintro o (rfl | hP)
    · rw [update_self, update_self]
    · have hne : o ≠ source := by
        rintro rfl
        exact hnew hP
      rw [update_of_ne hne, update_of_ne hne]
      exact h.map o hP

theorem Rehashing.take (h : Rehashing old P m none i t slotMap) (hi : i < t.capacity) (hbyte : t.ctrl i = ctrlDeleted) :
    Rehashing old P m (some i) (i + 1) ((t.dropSlot i).withCtrl i ctrlEmpty) slotMap := by
  have hctrl : ∀ {j}, j < t.capacity → ((t.dropSlot i).withCtrl i ctrlEmpty).ctrl j =
      if j = i then ctrlEmpty else t.ctrl j := fun hj => withCtrl_ctrl (t.dropSlot i) i ctrlEmpty hj
  have hslots : ∀ j, ((t.dropSlot i).withCtrl i ctrlEmpty).slots j = if j = i then none else t.slots j :=
    fun j => update_apply ..
  have hnotOcc : isOccupied (t.ctrl i) = false := by rw [hbyte, isOccupied_deleted]
  have hocc : ∀ j < t.capacity, isOccupied (((t.dropSlot i).withCtrl i ctrlEmpty).ctrl j) = isOccupied (t.ctrl j) := by
    intro j hj
    rw [hctrl hj]
    rcases eq_or_ne j i with rfl | hne
    · rw [if_pos rfl, hnotOcc, isOccupied_empty]
    · rw [if_neg hne]
  have hP := (h.marked_entry hi hbyte).1
  have hshape : ((t.dropSlot i).withCtrl i ctrlEmpty).Shape := by
    have hdrop : (t.dropSlot i).Shape := ⟨h.placed.shape.power, h.placed.shape.mirror⟩
    exact hdrop.withCtrl hi ctrlEmpty
  refine ⟨⟨hshape, h.placed.origin, ?_, h.placed.inj, ?_⟩, ?_, ?_, ?_, ?_, h.map, h.capacity, h.len⟩
  · intro o entry ho hat
    obtain ⟨hent, hbyte', hreach⟩ := h.placed.entry o entry ho hat
    obtain ⟨hlt, hocc', hslot⟩ := entryAt_eq_some.1 hent
    have hne : m o ≠ i := by
      intro heq
      rw [heq, hnotOcc] at hocc'
      cases hocc'
    refine ⟨entryAt_eq_some.2 ⟨hlt, (hocc _ hlt).trans hocc', ?_⟩, ?_, ?_⟩
    · rw [hslots, if_neg hne, hslot]
    · rw [hctrl hlt, if_neg hne, hbyte']
    · exact hreach.mono (fun j hj hj' => (hocc j hj).trans hj') h.placed.shape.pos
  · intro j hj hj'
    exact h.placed.occupied j hj ((hocc j hj).symm.trans hj')
  · intro j hj hj'
    rw [hctrl hj, hslots]
    rcases eq_or_ne j i with rfl | hne
    · exact .inl (if_pos rfl)
    · rw [if_neg hne, if_neg hne]
      exact h.rest j hj ((hocc j hj).symm.trans hj')
  · intro o entry ho
    have hlt : o < t.capacity := h.capacity ▸ (entryAt_eq_some.1 ho).1
    rcases eq_or_ne o i with rfl | hne
    · exact .inr (.inr rfl)
    · rw [hctrl hlt, if_neg hne]
      rcases h.all o entry ho with hP' | hbyte' | hhand
      · exact .inl hP'
      · exact .inr (.inl hbyte')
      · cases hhand
  · rintro o ⟨⟩
    rw [hctrl hi, if_pos rfl]
    exact ⟨hP, deleted_ne_empty.symm⟩
  · intro j hj hji
    rw [hctrl hj]
    rcases Nat.lt_succ_iff_lt_or_eq.1 hji with hlt | rfl
    · rw [if_neg (by omega)]
      exact h.passed j hj hlt
    · rw [if_pos rfl]
      exact deleted_ne_empty.symm

noncomputable def marked (t : SwissTable K V) : ℕ := slotCount t.capacity fun i => t.ctrl i = ctrlDeleted

theorem marked_withEntry {s : ℕ} (hs : s < t.capacity) (hbyte : t.ctrl s = ctrlDeleted)
    (entry : SwissTableEntry K V) : t.marked = (t.withEntry s entry).marked + 1 := by
  refine slotCount_insert hs ?_ hbyte ?_
  · rw [withEntry_ctrl t s entry hs, if_pos rfl]
    exact ne_deleted_of_isOccupied (isOccupied_h2 _)
  · intro i hi hne
    rw [withEntry_ctrl t s entry hi, if_neg hne]

/-- Every occupied slot has an entry, and `len` counts them. -/
structure Filled (t : SwissTable K V) : Prop where
  shape : t.Shape
  entry : ∀ i < t.capacity, isOccupied (t.ctrl i) = true → ∃ entry, t.slots i = some entry
  len : t.len = slotCount t.capacity fun i => isOccupied (t.ctrl i) = true

/-- The entries of `t` are in `t'`, the one of slot `o` in slot `m o`, and the other slots are empty. -/
structure Relocated (t : SwissTable K V) (m : ℕ → ℕ) (t' : SwissTable K V) : Prop where
  filled : t'.Filled
  empty : ∀ i < t'.capacity, isOccupied (t'.ctrl i) = false → t'.ctrl i = ctrlEmpty
  len : t'.len = t.len
  growth : t'.growthLeft = t'.capacity * 7 / 8 - t.len
  entry : ∀ o entry, t.entryAt o = some entry → t'.entryAt (m o) = some entry ∧ t'.ctrl (m o) = h2 entry.hash ∧
    t'.Reaches (· ≠ ctrlEmpty) entry.hash (m o)
  origin : ∀ i entry, t'.entryAt i = some entry → ∃ o, t.entryAt o = some entry ∧ m o = i
  inj : ∀ o o' entry entry', t.entryAt o = some entry → t.entryAt o' = some entry' → m o = m o' → o = o'

theorem Placed.exists_free (h : Placed old P m t) (hold : old.Filled) (hlt : old.len < old.capacity)
    (hle : old.capacity ≤ t.capacity) : ∃ s < t.capacity, isOccupied (t.ctrl s) = false := by
  have hless : slotCount old.capacity P ≤ slotCount old.capacity fun o => isOccupied (old.ctrl o) = true := by
    refine slotCount_le ?_
    intro o _ ho
    obtain ⟨entry, hat⟩ := h.origin o ho
    exact (entryAt_eq_some.1 hat).2.1
  rw [h.count, ← hold.len] at hless
  have hcnt : slotCount t.capacity (fun i => isOccupied (t.ctrl i) = true) < t.capacity := by omega
  obtain ⟨s, hs, hfree⟩ := exists_not_of_slotCount_lt hcnt
  exact ⟨s, hs, by simpa using hfree⟩

/-- All entries have been placed and the other slots are empty. -/
theorem Placed.relocated (h : Placed old P m t) (hold : old.Filled) (hall : ∀ o entry, old.entryAt o = some entry → P o)
    (hempty : ∀ i < t.capacity, isOccupied (t.ctrl i) = false → t.ctrl i = ctrlEmpty) :
    Relocated old m (t.counted old.len (t.capacity * 7 / 8 - old.len)) := by
  have hlen : old.len = slotCount t.capacity fun i => isOccupied (t.ctrl i) = true := by
    rw [hold.len, ← h.count]
    refine slotCount_congr ?_
    intro o ho
    constructor
    · intro hocc
      obtain ⟨entry, hslot⟩ := hold.entry o ho hocc
      exact hall o entry (entryAt_eq_some.2 ⟨ho, hocc, hslot⟩)
    · intro hP
      obtain ⟨entry, hat⟩ := h.origin o hP
      exact (entryAt_eq_some.1 hat).2.1
  have hback : ∀ i < t.capacity, isOccupied (t.ctrl i) = true →
      ∃ o entry, old.entryAt o = some entry ∧ t.entryAt i = some entry ∧ m o = i := by
    intro i hi hocc
    obtain ⟨o, ho, rfl⟩ := h.occupied i hi hocc
    obtain ⟨entry, hat⟩ := h.origin o ho
    exact ⟨o, entry, hat, (h.entry o entry ho hat).1, rfl⟩
  refine ⟨⟨h.shape.counted .., ?_, hlen⟩, hempty, rfl, rfl, ?_, ?_, ?_⟩
  · intro i hi hocc
    obtain ⟨-, entry, -, hat, -⟩ := hback i hi hocc
    exact ⟨entry, (entryAt_eq_some.1 hat).2.2⟩
  · intro o entry hat
    obtain ⟨hent, hbyte, hreach⟩ := h.entry o entry (hall o entry hat) hat
    exact ⟨hent, hbyte, hreach.mono (fun _ _ => ne_empty_of_isOccupied) h.shape.pos⟩
  · intro i entry hi
    obtain ⟨hlt, hocc, -⟩ := entryAt_eq_some.1 hi
    obtain ⟨o, entry', hat, hat', hoi⟩ := hback i hlt hocc
    cases hi.symm.trans hat'
    exact ⟨o, hat, hoi⟩
  · exact fun o o' entry entry' ho ho' => h.inj o o' (hall o entry ho) (hall o' entry' ho')

theorem settle_spec (hold : old.Filled) (hlt : old.len < old.capacity) {source turns : ℕ} (h : Rehashing old P m (some source) i t slotMap)
    (hat : old.entryAt source = some entry) (hturns : t.marked < turns) :
    ∃ t' slotMap' P' m', settle turns (t, slotMap) entry source = .ok (t', slotMap') ∧
      Rehashing old P' m' none i t' slotMap' := by
  induction turns generalizing t P m source slotMap entry with
  | zero => omega
  | succ turns ih =>
    obtain ⟨target, hfind, htgt, hfree, hreach⟩ := findEmptySlot_spec h.placed.shape entry.hash
      (h.placed.exists_free hold hlt (Nat.le_of_eq h.capacity.symm))
    have hplace := h.place hat htgt hfree hreach
    rw [settle, hfind, ok_bind]
    simp only [place_ok t htgt, ok_bind]
    split
    · rename_i hbyte
      -- The slot was marked: its entry is the next one.
      rw [if_pos hbyte] at hplace
      obtain ⟨-, displaced, hdisplaced, hslot⟩ := h.marked_entry htgt hbyte
      rw [readSlot_ok htgt hslot, ok_bind]
      have hless := marked_withEntry htgt hbyte entry
      exact ih hplace hdisplaced (by omega)
    · rename_i hbyte
      rw [if_neg hbyte] at hplace
      exact ⟨_, _, _, _, rfl, hplace⟩

theorem rehashTurn_spec (hold : old.Filled) (hlt : old.len < old.capacity) (h : Rehashing old P m none i t slotMap) (hi : i < t.capacity) :
    ∃ t' slotMap' P' m', rehashTurn (t, slotMap) i = .ok (t', slotMap') ∧
      Rehashing old P' m' none (i + 1) t' slotMap' := by
  by_cases hbyte : t.ctrl i = ctrlDeleted
  · obtain ⟨-, entry, hat, hslot⟩ := h.marked_entry hi hbyte
    simp only [rehashTurn, hbyte, ne_eq, not_true_eq_false, if_false]
    rw [readSlot_ok hi hslot, ok_bind, setCtrl_ok (t.dropSlot i) hi, ok_bind]
    refine settle_spec hold hlt (h.take hi hbyte) hat ?_
    exact Nat.lt_succ_of_le (slotCount_le_cap ..)
  · refine ⟨t, slotMap, P, m, by simp [rehashTurn, hbyte], ?_⟩
    refine ⟨h.placed, h.rest, h.all, h.held, ?_, h.map, h.capacity, h.len⟩
    intro j hj hji
    rcases Nat.lt_succ_iff_lt_or_eq.1 hji with hlt | rfl
    · exact h.passed j hj hlt
    · exact hbyte

/-- `rehash_in_place` moves every entry inside of the table, and says where it is now. -/
theorem Filled.rehashInPlace_spec (h : t.Filled) (hsparse : t.len ≤ t.capacity * 7 / 16) :
    ∃ t' slotMap m, t.rehashInPlace = .ok (t', slotMap) ∧ Relocated t m t' ∧ t'.capacity = t.capacity ∧
      ∀ o entry, t.entryAt o = some entry → slotMap o = Int32.ofNat (m o) := by
  have hlt : t.len < t.capacity := by
    have hpos := h.shape.pos
    omega
  have hmark := fun {i} (hi : i < t.capacity) => h.shape.markAll_ctrl hi
  have hnone : ∀ i < t.capacity, isOccupied (t.markAll.ctrl i) = false := by
    intro i hi
    rw [hmark hi]
    split
    · exact isOccupied_deleted
    · exact isOccupied_empty
  have hstart : Rehashing t (fun _ => False) id none 0 t.markAll fun i => Int32.ofNat i := by
    refine ⟨⟨h.shape.markAll, fun _ => False.elim, fun _ _ => False.elim, fun _ _ => False.elim, ?_⟩, ?_, ?_, ?_, ?_,
      fun _ => False.elim, rfl, rfl⟩
    · intro i hi hocc
      rw [hnone i hi] at hocc
      cases hocc
    · intro j hj _
      rw [hmark hj]
      cases hocc : isOccupied (t.ctrl j) with
      | false => exact .inl rfl
      | true =>
        obtain ⟨entry, hslot⟩ := h.entry j hj hocc
        exact .inr ⟨rfl, not_false, entry, entryAt_eq_some.2 ⟨hj, hocc, hslot⟩, hslot⟩
    · intro o entry hat
      obtain ⟨ho, hocc, -⟩ := entryAt_eq_some.1 hat
      exact .inr (.inl (by rw [hmark ho, if_pos hocc]))
    · intro o ho
      cases ho
    · intro j _ hj
      omega
  obtain ⟨⟨t', slotMap⟩, hfold, hcap, P, m, hend⟩ := exists_foldlM_range (n := t.capacity)
    (fun i (state : SwissTable K V × (ℕ → Int32)) => state.1.capacity = t.capacity ∧
      ∃ P m, Rehashing t P m none i state.1 state.2)
    (fun i hi state hstate => by
      obtain ⟨hcap, P, m, hr⟩ := hstate
      obtain ⟨t', slotMap', P', m', hturn, hr'⟩ := rehashTurn_spec h hlt hr (by omega)
      exact ⟨(t', slotMap'), hturn, hr'.capacity, P', m', hr'⟩)
    (b := (t.markAll, fun i => Int32.ofNat i)) ⟨rfl, _, _, hstart⟩
  simp only at hcap hend
  have hdone : ∀ j < t'.capacity, t'.ctrl j ≠ ctrlDeleted := fun j hj => hend.passed j hj (by omega)
  have hall : ∀ o entry, t.entryAt o = some entry → P o := by
    intro o entry hat
    rcases hend.all o entry hat with hP | hbyte | hhand
    · exact hP
    · exact absurd hbyte (hdone o (by rw [hcap]; exact (entryAt_eq_some.1 hat).1))
    · cases hhand
  have hmoved := hend.placed.relocated h hall (fun i hi hocc => by
    rcases hend.rest i hi hocc with hempty | ⟨hbyte, -⟩
    · exact hempty
    · exact absurd hbyte (hdone i hi))
  refine ⟨_, slotMap, m, ?_, hmoved, hcap, fun o entry hat => hend.map o (hall o entry hat)⟩
  rw [rehashInPlace, if_pos hsparse, hfold, ok_bind]
  simp only [← hend.len]
  rfl

theorem Filled.of_length (hshape : t.Shape)
    (hslots : ∀ i < t.capacity, isOccupied (t.ctrl i) = true → (t.slots i).isSome = true)
    (hlen : t.len = ((range t.capacity).filter fun i => isOccupied (t.ctrl i)).length) : t.Filled := by
  refine ⟨hshape, fun i hi hocc => Option.isSome_iff_exists.1 (hslots i hi hocc), ?_⟩
  rw [hlen]
  exact length_eq_slotCount (nodup_range.filter _) (by simp)

/-- Sixteen slots, the first `n` with entries of hash zero, and a tombstone after them. -/
def crowded (n : ℕ) : SwissTable ℕ ℕ :=
  { ctrl := fun i => if i % 16 < n then 0 else if i % 16 = n then ctrlDeleted else ctrlEmpty
    slots := fun i => if i < n then some ⟨0, i, i⟩ else none
    len := n, capacity := 16, growthLeft := 13 - n }

variable [BEq K] [Hashable K]

/-- The entries of `t` are in `t'`, the one of slot `o` in slot `m o`. -/
structure Moved (t : SwissTable K V) (m : ℕ → ℕ) (t' : SwissTable K V) : Prop where
  sound : t'.Sound
  len : t'.len = t.len
  growth : t'.growthLeft = t'.capacity * 7 / 8 - t.len
  entry : ∀ o entry, t.entryAt o = some entry → t'.entryAt (m o) = some entry
  origin : ∀ i entry, t'.entryAt i = some entry → ∃ o, t.entryAt o = some entry ∧ m o = i
  inj : ∀ o o' entry entry', t.entryAt o = some entry → t.entryAt o' = some entry' → m o = m o' → o = o'

theorem Sound.filled (h : t.Sound) : t.Filled := by
  refine ⟨h.shape, ?_, h.len⟩
  intro i hi hocc
  obtain ⟨entry, hslot, -⟩ := h.entry i hi hocc
  exact ⟨entry, hslot⟩

theorem Sound.len_le (h : t.Sound) : t.len ≤ t.capacity * 7 / 8 := by
  have hgrow := h.growth
  have hroom := h.room
  have hless : t.len ≤ slotCount t.capacity fun i => t.ctrl i ≠ ctrlEmpty := by
    rw [h.len]
    exact slotCount_le fun _ _ => ne_empty_of_isOccupied
  omega

theorem Sound.len_lt (h : t.Sound) : t.len < t.capacity := by
  have hle := h.len_le
  have hpos := h.shape.pos
  omega

theorem Relocated.moved {t' : SwissTable K V} (h : Relocated t m t') (hold : t.Sound)
    (hroom : t.len ≤ t'.capacity * 7 / 8) : Moved t m t' := by
  have hnonempty : ∀ i < t'.capacity, t'.ctrl i ≠ ctrlEmpty ↔ isOccupied (t'.ctrl i) = true := by
    intro i hi
    constructor
    · intro hne
      by_contra hocc
      exact hne (h.empty i hi (by simpa using hocc))
    · exact ne_empty_of_isOccupied
  refine ⟨⟨h.filled.shape, fun i hi hocc => .inl (h.empty i hi hocc), ?_, ?_, ?_, h.filled.len, ?_, ?_⟩, h.len, h.growth,
    fun o entry hat => (h.entry o entry hat).1, h.origin, h.inj⟩
  · intro i hi hocc
    obtain ⟨entry, hslot⟩ := h.filled.entry i hi hocc
    obtain ⟨o, hat, rfl⟩ := h.origin i entry (entryAt_eq_some.2 ⟨hi, hocc, hslot⟩)
    exact ⟨entry, hslot, (h.entry o entry hat).2.1, (hold.slots_of_entryAt hat).2.2.2.2⟩
  · intro i j entry entry' hi hj hkey
    obtain ⟨o, ho, rfl⟩ := h.origin i entry hi
    obtain ⟨o', ho', rfl⟩ := h.origin j entry' hj
    rw [hold.unique o o' entry entry' ho ho' hkey]
  · intro i entry hi
    obtain ⟨o, ho, rfl⟩ := h.origin i entry hi
    exact (h.entry o entry ho).2.2
  · have hlen := h.len
    rw [h.growth, slotCount_congr hnonempty, ← h.filled.len]
    omega
  · rw [h.growth]
    omega

/-- What holds of the loop variables of `resize` after `i` turns. -/
def Resizing (old : SwissTable K V) (newCapacity i : ℕ) (state : SwissTable K V × List (ℕ × ℕ)) : Prop :=
  ∃ m, Placed old (fun o => o < i ∧ (old.entryAt o).isSome = true) m state.1 ∧
    (∀ j < state.1.capacity, isOccupied (state.1.ctrl j) = false → state.1.ctrl j = ctrlEmpty) ∧
    state.1.capacity = newCapacity ∧ state.1.len = old.len ∧
    state.1.growthLeft = newCapacity * 7 / 8 - old.len ∧ state.2 = old.relocationsTo m i

theorem Sound.resizeTurn_spec (h : t.Sound) {newCapacity : ℕ} (hle : t.capacity ≤ newCapacity)
    (hi : i < t.capacity) {state : SwissTable K V × List (ℕ × ℕ)} (hstate : Resizing t newCapacity i state) :
    ∃ state', resizeTurn t state i = .ok state' ∧ Resizing t newCapacity (i + 1) state' := by
  obtain ⟨t', relocations⟩ := state
  obtain ⟨m, hplaced, hempty, hcap, hlen, hgrow, hreloc⟩ := hstate
  simp only at hplaced hempty hcap hlen hgrow hreloc
  cases hocc : isOccupied (t.ctrl i) with
  | false =>
    refine ⟨(t', relocations), by simp [resizeTurn, hocc], m, ?_, hempty, hcap, hlen, hgrow, ?_⟩
    · have hnone : t.entryAt i = none := if_neg (by simp [hocc])
      rw [below_succ]
      simpa [hnone] using hplaced
    · rw [hreloc, relocationsTo, relocationsTo, range_succ, filter_append]
      simp [hocc]
  | true =>
    obtain ⟨entry, hslot, -⟩ := h.entry i hi hocc
    have hat : t.entryAt i = some entry := entryAt_eq_some.2 ⟨hi, hocc, hslot⟩
    obtain ⟨s, hfind, hs, hfree, hreach⟩ := findEmptySlot_spec hplaced.shape entry.hash
      (hplaced.exists_free h.filled h.len_lt (by omega))
    refine ⟨(t'.withEntry s entry, relocations ++ [(i, s)]), ?_, update m i s, ?_, ?_, hcap, hlen, hgrow, ?_⟩
    · simp only [resizeTurn, hocc, if_true]
      rw [readSlot_ok hi hslot, ok_bind, hfind, ok_bind, place_ok t' hs, ok_bind]
      rfl
    · rw [below_succ]
      simpa [hat] using hplaced.place (by omega) hat hs hfree hreach
    · intro j hj hj'
      rw [withEntry_ctrl t' s entry hj] at hj' ⊢
      split at hj'
      · rw [isOccupied_h2] at hj'
        cases hj'
      · rename_i hne
        rw [if_neg hne]
        exact hempty j hj hj'
    · have hnext : t.relocationsTo (update m i s) (i + 1) =
          t.relocationsTo (update m i s) i ++ [(i, s)] := by
        simp [relocationsTo, range_succ, hocc]
      rw [hnext, relocationsTo_update, hreloc]

theorem Sound.resize_spec (h : t.Sound) {n newCapacity : ℕ} (hn : 4 ≤ n)
    (hcap : newCapacity = 2 ^ n) (hle : t.capacity ≤ newCapacity) :
    ∃ t' m, t.resize newCapacity = .ok (t', t.relocationsTo m t.capacity) ∧ Moved t m t' ∧
      t'.capacity = newCapacity := by
  have hstart : Resizing t newCapacity 0 (SwissTable.allocated newCapacity t.len, []) := by
    refine ⟨id, ⟨⟨⟨n, hn, hcap⟩, fun _ _ => rfl⟩, ?_, ?_, ?_, ?_⟩, fun _ _ _ => rfl, rfl, rfl, rfl, rfl⟩
    · rintro o ⟨ho, -⟩
      omega
    · rintro o entry ⟨ho, -⟩
      omega
    · rintro o o' ⟨ho, -⟩
      omega
    · intro i _ hocc
      cases hocc
  obtain ⟨⟨t', relocations⟩, hfold, m, hplaced, hempty, hcap', hlen, hgrow, hreloc⟩ :=
    exists_foldlM_range (Resizing t newCapacity) (fun i hi _ => h.resizeTurn_spec hle hi) hstart
  simp only at hplaced hempty hcap' hlen hgrow hreloc
  have hroom : t.len ≤ t'.capacity * 7 / 8 := by
    have hle := h.len_le
    omega
  have hmoved := hplaced.relocated h.filled (fun o entry hat => ⟨(entryAt_eq_some.1 hat).1, by simp [hat]⟩) hempty
  have hsame : t'.counted t.len (t'.capacity * 7 / 8 - t.len) = t' := by
    rw [← hlen, hcap', ← hlen] at *
    rw [← hgrow]
    rfl
  rw [hsame] at hmoved
  exact ⟨t', m, by rw [resize, hfold, hreloc], hmoved.moved h hroom, hcap'⟩

end MojoProse.Stdlib.SwissTable
