import MojoProse.Stdlib.Dict
import MojoProse.Stdlib.SwissTableRehash

/-! The order list of a `Dict`: it names every occupied slot once, in the order of insertion, through compaction, growth
    and rehashing. Its numbers are of 32 bits, so that they can be read back only from a table of at most `2 ^ 31`
    slots. -/

namespace MojoProse.Stdlib.Dict

open Schemes SwissTable List Int32

variable {K V : Type}

/-- Every slot number of the table is an `Int32`. -/
def Fits (d : Dict K V) : Prop := d.table.capacity ≤ 2 ^ 31

def contents (table : SwissTable K V) (slots : List ℕ) : List (K × V) := (slots.filterMap table.entryAt).map pair

section Holds

variable [BEq K] [Hashable K] {l : List (K × V)} {d : Dict K V}

/-- The order list has the numbers of `slots`: each slot that is occupied, once, and slots that have been. -/
structure Holds (d : Dict K V) (slots : List ℕ) : Prop where
  sound : d.table.Sound
  order : d.order = slots.map ofNat
  nodup : slots.Nodup
  used : ∀ s ∈ slots, s < d.table.capacity ∧ d.table.ctrl s ≠ ctrlEmpty
  all : ∀ s entry, d.table.entryAt s = some entry → s ∈ slots

namespace Holds

variable {d : Dict K V} {slots : List ℕ} (h : Holds d slots)
include h

theorem toInt_eq (hfits : d.Fits) {s : ℕ} (hs : s ∈ slots) : (ofNat s).toInt = s := by
  have hlt := (h.used s hs).1
  unfold Fits at hfits
  exact toInt_ofNat_of_lt (by omega)

theorem readCtrl_ok (hfits : d.Fits) {s : ℕ} (hs : s ∈ slots) :
    d.table.readCtrl (ofNat s).toInt = .ok (d.table.ctrl s) := by
  have hlt := (h.used s hs).1
  rw [h.toInt_eq hfits hs, readCtrl, if_pos (by omega)]
  rfl

theorem isSome_entryAt {s : ℕ} (hs : s ∈ slots) : (d.table.entryAt s).isSome = isOccupied (d.table.ctrl s) := by
  have hlt := (h.used s hs).1
  cases hocc : isOccupied (d.table.ctrl s) with
  | false => simp [entryAt, hocc]
  | true =>
    obtain ⟨entry, hslot, -⟩ := h.sound.entry s hlt hocc
    rw [entryAt_eq_some.2 ⟨hlt, hocc, hslot⟩]
    rfl

theorem length_occupied : (slots.filter fun s => isOccupied (d.table.ctrl s)).length = d.table.len := by
  rw [h.sound.len]
  refine length_eq_slotCount (h.nodup.filter _) ?_
  intro s
  rw [mem_filter]
  constructor
  · rintro ⟨hs, hocc⟩
    exact ⟨(h.used s hs).1, hocc⟩
  · rintro ⟨hlt, hocc⟩
    obtain ⟨entry, hslot, -⟩ := h.sound.entry s hlt hocc
    exact ⟨h.all s entry (entryAt_eq_some.2 ⟨hlt, hocc, hslot⟩), hocc⟩

theorem filterMap_occupied :
    (slots.filter fun s => isOccupied (d.table.ctrl s)).filterMap d.table.entryAt = slots.filterMap d.table.entryAt := by
  rw [filterMap_filter]
  refine filterMap_congr ?_
  intro s hs
  split
  · rfl
  · rename_i hocc
    rw [← h.isSome_entryAt hs, Option.not_isSome_iff_eq_none] at hocc
    exact hocc.symm

theorem length_contents : (contents d.table slots).length = d.table.len := by
  rw [contents, length_map, ← h.filterMap_occupied, ← h.length_occupied]
  refine filterMap_length_eq_length.2 ?_
  intro s hs
  obtain ⟨hs, hocc⟩ := mem_filter.1 hs
  rw [h.isSome_entryAt hs]
  exact hocc

theorem compactOrder_ok (hfits : d.Fits) :
    compactOrder d.table d.order = .ok ((slots.filter fun s => isOccupied (d.table.ctrl s)).map ofNat) := by
  have hloop := foldlM_map_ok
    (f := fun newOrder slot => do
      if isOccupied (← d.table.readCtrl slot.toInt) then pure (newOrder ++ [slot]) else pure newOrder)
    (g := fun s => if isOccupied (d.table.ctrl s) then some (ofNat s) else none)
    (fun s hs acc => by
      rw [h.readCtrl_ok hfits hs, ok_bind]
      split
      · rfl
      · exact congrArg Except.ok (append_nil acc).symm) []
  rw [compactOrder, h.order, hloop, nil_append]
  rw [← filterMap_eq_map, filterMap_filter]
  rfl

theorem compacted : Holds { d with order := (slots.filter fun s => isOccupied (d.table.ctrl s)).map ofNat }
    (slots.filter fun s => isOccupied (d.table.ctrl s)) := by
  refine ⟨h.sound, rfl, h.nodup.filter _, ?_, ?_⟩
  · intro s hs
    exact h.used s (mem_filter.1 hs).1
  · intro s entry hat
    exact mem_filter.2 ⟨h.all s entry hat, (entryAt_eq_some.1 hat).2.1⟩

theorem moved {m : ℕ → ℕ} {table : SwissTable K V} (hmoved : Moved d.table m table) {order : List Int32}
    (hord : order = (slots.filter fun s => isOccupied (d.table.ctrl s)).map fun s => ofNat (m s)) :
    order.length = table.len ∧ ∃ slots', Holds { table, order } slots' ∧
      contents table slots' = contents d.table slots := by
  have hent : ∀ s ∈ slots.filter (fun s => isOccupied (d.table.ctrl s)), ∃ entry, d.table.entryAt s = some entry := by
    intro s hs
    obtain ⟨hs, hocc⟩ := mem_filter.1 hs
    rw [← h.isSome_entryAt hs] at hocc
    exact Option.isSome_iff_exists.1 hocc
  refine ⟨?_, (slots.filter fun s => isOccupied (d.table.ctrl s)).map m, ⟨hmoved.sound, ?_, ?_, ?_, ?_⟩, ?_⟩
  · rw [hord, length_map, h.length_occupied, hmoved.len]
  · rw [hord, map_map]
    rfl
  · refine Nodup.map_on ?_ (h.nodup.filter _)
    intro s hs s' hs' heq
    obtain ⟨entry, hat⟩ := hent s hs
    obtain ⟨entry', hat'⟩ := hent s' hs'
    exact hmoved.inj s s' entry entry' hat hat' heq
  · intro s hs
    obtain ⟨o, ho, rfl⟩ := mem_map.1 hs
    obtain ⟨entry, hat⟩ := hent o ho
    obtain ⟨hlt, hocc, -⟩ := entryAt_eq_some.1 (hmoved.entry o entry hat)
    exact ⟨hlt, ne_empty_of_isOccupied hocc⟩
  · intro s entry hat
    obtain ⟨o, hat', rfl⟩ := hmoved.origin s entry hat
    exact mem_map_of_mem (mem_filter.2 ⟨h.all o entry hat', (entryAt_eq_some.1 hat').2.1⟩)
  · rw [contents, contents, ← h.filterMap_occupied, filterMap_map]
    congr 1
    refine filterMap_congr ?_
    intro s hs
    obtain ⟨entry, hat⟩ := hent s hs
    rw [Function.comp_apply, hat, hmoved.entry s entry hat]

end Holds

/-- The dictionary has a table, and stands for the list. -/
def Full (d : Dict K V) (l : List (K × V)) : Prop := ∃ slots, Holds d slots ∧ contents d.table slots = l

/-- The dictionary stands for the list; it has no table yet if it was made without a capacity. -/
def Represents (d : Dict K V) (l : List (K × V)) : Prop := (d = init ∧ l = []) ∨ Full d l

theorem Full.maybeCompactOrder (h : Full d l) (hfits : d.Fits) :
    ∃ d', d.maybeCompactOrder = .ok d' ∧ Full d' l ∧ d'.table = d.table := by
  obtain ⟨slots, hholds, hl⟩ := h
  rw [Dict.maybeCompactOrder]
  split
  · exact ⟨d, rfl, ⟨slots, hholds, hl⟩, rfl⟩
  · rw [hholds.compactOrder_ok hfits, ok_bind]
    refine ⟨_, rfl, ⟨_, hholds.compacted, ?_⟩, rfl⟩
    rw [← hl, contents, contents, ← hholds.filterMap_occupied]

theorem Full.rehashInPlace (h : Full d l) (hfits : d.Fits)
    (hsparse : d.table.isSparse = true) : ∃ d', d.rehashInPlace = .ok d' ∧ Full d' l ∧ 0 < d'.table.growthLeft := by
  obtain ⟨slots, hholds, hl⟩ := h
  rw [isSparse, decide_eq_true_eq] at hsparse
  obtain ⟨table, slotMap, m, hrehash, hreloc, hcap, hmap⟩ := hholds.sound.filled.rehashInPlace_spec hsparse
  have hmoved := hreloc.moved hholds.sound (by omega)
  have hcompacted := hholds.compacted
  -- The loop that replaces the slot numbers by those of the map.
  have hloop := foldlM_map_ok (e := ofNat)
    (f := fun order slot => do pure (order ++ [← readAt table.capacity slotMap slot.toInt]))
    (g := fun s => some (ofNat (m s)))
    (fun s hs acc => by
      have hread : readAt table.capacity slotMap (ofNat s).toInt = .ok (slotMap s) := by
        have hlt := (hcompacted.used s hs).1
        simp only at hlt
        rw [hcompacted.toInt_eq hfits hs, readAt, if_pos (by omega)]
        rfl
      obtain ⟨hs', hocc⟩ := mem_filter.1 hs
      rw [← hholds.isSome_entryAt hs'] at hocc
      obtain ⟨entry, hat⟩ := Option.isSome_iff_exists.1 hocc
      rw [hread, ok_bind, hmap s entry hat]
      rfl) []
  rw [filterMap_eq_map', nil_append] at hloop
  obtain ⟨hlen, slots', hholds', hcont⟩ := hholds.moved hmoved rfl
  rw [Dict.rehashInPlace, hholds.compactOrder_ok hfits, ok_bind, hrehash, ok_bind]
  simp only
  rw [hloop, ok_bind, if_pos hlen]
  refine ⟨_, rfl, ⟨slots', hholds', hcont.trans hl⟩, ?_⟩
  have hwidth := hholds.sound.shape.groupWidth_le
  simp only [groupWidth] at hwidth
  rw [hmoved.growth]
  omega

omit [BEq K] [Hashable K] in
theorem slotMap_relocations (m : ℕ → ℕ) (l : List ℕ) (s : ℕ) :
    slotMap (l.map fun o => (o, m o)) s = if s ∈ l then some (ofNat (m s)) else none := by
  have hgeneral : ∀ map : ℕ → Option Int32, (l.map fun o => (o, m o)).foldl
      (fun (map : ℕ → Option Int32) relocation => Function.update map relocation.1 (some (ofNat relocation.2))) map s =
      if s ∈ l then some (ofNat (m s)) else map s := by
    induction l with
    | nil => exact fun map => rfl
    | cons o l ih =>
      intro map
      rw [map_cons, foldl_cons, ih]
      rcases eq_or_ne s o with rfl | hne
      · simp
      · simp [hne]
  exact hgeneral _

theorem Full.grow (h : Full d l) (hfits : d.Fits)
    (hsparse : d.table.isSparse = false) : ∃ d', d.growSlow = .ok d' ∧ Full d' l ∧ 0 < d'.table.growthLeft := by
  obtain ⟨slots, hholds, hl⟩ := h
  have hsound := hholds.sound
  have hwidth := hsound.shape.groupWidth_le
  simp only [groupWidth] at hwidth
  obtain ⟨n, hn, hpower⟩ := hsound.shape.power
  have hdouble : d.table.capacity * 2 = 2 ^ (n + 1) := by rw [hpower, Nat.pow_succ]
  obtain ⟨table, m, hresize, hmoved, hcap⟩ := hsound.resize_spec (by omega) hdouble (by omega)
  have hloop := foldlM_map_ok
    (f := relocateTurn d.table.capacity (slotMap (d.table.relocationsTo m d.table.capacity)))
    (g := fun s => if isOccupied (d.table.ctrl s) then some (ofNat (m s)) else none)
    (fun s hs acc => by
      have hlt := (hholds.used s hs).1
      have hread : readAt d.table.capacity (slotMap (d.table.relocationsTo m d.table.capacity)) (ofNat s).toInt =
          .ok (if isOccupied (d.table.ctrl s) then some (ofNat (m s)) else none) := by
        rw [hholds.toInt_eq hfits hs, readAt, if_pos (by omega), Int.toNat_natCast, relocationsTo, slotMap_relocations]
        simp [hlt]
      rw [relocateTurn, hread, ok_bind]
      split
      · rename_i newSlot heq
        rw [heq]
        rfl
      · rename_i heq
        rw [heq]
        exact congrArg Except.ok (append_nil acc).symm) []
  have hord : slots.filterMap (fun s => if isOccupied (d.table.ctrl s) then some (ofNat (m s)) else none) =
      (slots.filter fun s => isOccupied (d.table.ctrl s)).map fun s => ofNat (m s) := by
    rw [← filterMap_eq_map', filterMap_filter]
  rw [hord, nil_append] at hloop
  obtain ⟨hlen, slots', hholds', hcont⟩ := hholds.moved hmoved rfl
  rw [growSlow, if_neg (by omega), hsparse, if_neg (by simp), hresize, ok_bind]
  simp only
  rw [hholds.order, hloop, ok_bind, if_pos hlen]
  refine ⟨_, rfl, ⟨slots', hholds', hcont.trans hl⟩, ?_⟩
  have hle := hsound.len_le
  rw [hmoved.growth]
  omega

theorem growSlow_init : ∃ d' : Dict K V, init.growSlow = .ok d' ∧ Full d' [] ∧ 0 < d'.table.growthLeft := by
  refine ⟨{ table := allocated initialCapacity 0, order := [] }, rfl, ⟨[], ⟨?_, rfl, nodup_nil, ?_, ?_⟩, rfl⟩, ?_⟩
  · exact Sound.allocated (Nat.le_refl 4) rfl
  · intro s hs
    cases hs
  · intro s entry hat
    obtain ⟨_, _, hslot⟩ := entryAt_eq_some.1 hat
    cases hslot
  · change (0 : ℤ) < (16 : ℕ) * 7 / 8 - (0 : ℕ)
    decide

/-- **Room for one more entry**, whatever has to be done for it. -/
theorem Represents.ensureCapacity (h : Represents d l) (hfits : d.Fits) :
    ∃ d', d.ensureCapacity = .ok d' ∧ Full d' l ∧ 0 < d'.table.growthLeft := by
  rcases h with ⟨rfl, rfl⟩ | h
  · exact growSlow_init
  · rw [Dict.ensureCapacity]
    cases hneeds : d.table.needsResize with
    | false =>
      obtain ⟨d', hcompact, hfull, htable⟩ := h.maybeCompactOrder hfits
      refine ⟨d', hcompact, hfull, ?_⟩
      rw [needsResize, decide_eq_false_iff_not] at hneeds
      rw [htable]
      omega
    | true =>
      cases hsparse : d.table.isSparse with
      | false => exact h.grow hfits hsparse
      | true =>
        have hpos : d.table.capacity ≠ 0 := by
          obtain ⟨slots, hholds, -⟩ := h
          have := hholds.sound.shape.pos
          omega
        rw [growSlow, if_neg hpos, hsparse, if_pos rfl]
        exact h.rehashInPlace hfits hsparse

end Holds

end MojoProse.Stdlib.Dict
