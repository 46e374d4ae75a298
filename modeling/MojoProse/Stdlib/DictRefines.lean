import MojoProse.Stdlib.DequeLayout
import MojoProse.Stdlib.DictGrowth

/-! Each method of `Dict` does to its association list what it should, and comes to its end. -/

namespace MojoProse.Stdlib.Dict

open Schemes SwissTable List OrderedMap

variable {K V : Type}

theorem readCtrl_ok {table : SwissTable K V} {s : ℕ} (hs : s < table.capacity) : table.readCtrl s = .ok (table.ctrl s) := by
  rw [readCtrl, if_pos (by omega)]
  rfl

theorem contents_congr {table table' : SwissTable K V} {slots : List ℕ}
    (h : ∀ s ∈ slots, table'.entryAt s = table.entryAt s) : contents table' slots = contents table slots := by
  rw [contents, contents, filterMap_congr h]

theorem contents_append (table : SwissTable K V) (slots slots' : List ℕ) :
    contents table (slots ++ slots') = contents table slots ++ contents table slots' := by
  rw [contents, filterMap_append, map_append]
  rfl

variable {s : ℕ} {table : SwissTable K V} {entry : SwissTableEntry K V}

theorem readSlot_of_entryAt (hat : table.entryAt s = some entry) : table.readSlot s = .ok entry :=
  readSlot_ok (entryAt_eq_some.1 hat).1 (entryAt_eq_some.1 hat).2.2

theorem erase_of_find_none [BEq K] {l : List (K × V)} {key : K} (h : OrderedMap.find l key = none) :
    erase l key = l := by
  refine filter_eq_self.2 fun p hp => ?_
  simpa using find?_eq_none.1 h p hp

theorem contents_singleton (h : table.entryAt s = some entry) : contents table [s] = [pair entry] := by
  rw [contents, filterMap_cons, h]
  rfl

theorem mem_contents {slots : List ℕ} {p : K × V} :
    p ∈ contents table slots ↔ ∃ s ∈ slots, ∃ entry, table.entryAt s = some entry ∧ pair entry = p := by
  rw [contents, mem_map]
  constructor
  · rintro ⟨entry, hent, rfl⟩
    obtain ⟨s, hs, hat⟩ := mem_filterMap.1 hent
    exact ⟨s, hs, entry, hat, rfl⟩
  · rintro ⟨s, hs, entry, hat, rfl⟩
    exact ⟨entry, mem_filterMap.2 ⟨s, hs, hat⟩, rfl⟩

variable [BEq K] [Hashable K] {l : List (K × V)} {d : Dict K V} {key : K}

namespace Holds

variable {d : Dict K V} {slots : List ℕ} {old : SwissTableEntry K V}

theorem find_eq_some [EquivBEq K] (h : Holds d slots)
    (hat : d.table.entryAt s = some entry) (hkey : (entry.key == key) = true) :
    OrderedMap.find (contents d.table slots) key = some (pair entry) := by
  rw [OrderedMap.find]
  cases hfind : (contents d.table slots).find? fun e => e.1 == key with
  | none =>
    have hmem : pair entry ∈ contents d.table slots := mem_contents.2 ⟨s, h.all s entry hat, entry, hat, rfl⟩
    exact absurd hkey (find?_eq_none.1 hfind _ hmem)
  | some p =>
    obtain ⟨s', -, entry', hat', rfl⟩ := mem_contents.1 (mem_of_find?_eq_some hfind)
    have hkey' : (entry'.key == key) = true := find?_some (p := fun e : K × V => e.1 == key) hfind
    have hsame := h.sound.unique s' s entry' entry hat' hat (BEq.trans hkey' (BEq.symm hkey))
    rw [hsame, hat] at hat'
    cases hat'
    rfl

theorem other_key [EquivBEq K] (h : Holds d slots) (hold : d.table.entryAt s = some old) (hkey : (old.key == key) = true)
    {i : ℕ} (hne : i ≠ s) (hi : d.table.entryAt i = some entry) : (entry.key == key) = false := by
  rw [Bool.eq_false_iff]
  intro htrue
  exact hne (h.sound.unique i s entry old hi hold (BEq.trans htrue (BEq.symm hkey)))

omit [Hashable K] in
theorem find_eq_none (hnone : ∀ i entry, table.entryAt i = some entry → (entry.key == key) = false) (slots : List ℕ) :
    OrderedMap.find (contents table slots) key = none := by
  refine find?_eq_none.2 ?_
  intro p hp
  obtain ⟨s, -, entry, hat, rfl⟩ := mem_contents.1 hp
  exact Bool.eq_false_iff.1 (hnone s entry hat)

theorem overwrite [EquivBEq K] [LawfulHashable K] (h : Holds d slots) {entry : SwissTableEntry K V}
    (hold : d.table.entryAt s = some old) (hkey : (old.key == entry.key) = true)
    (hhash : entry.hash = hash entry.key) :
    Holds { d with table := d.table.writeSlot s entry } slots ∧ contents (d.table.writeSlot s entry) slots =
        OrderedMap.insert (contents d.table slots) entry.key entry.value := by
  have hat := entryAt_writeSlot hold entry
  refine ⟨⟨h.sound.overwrite hold hkey hhash, h.order, h.nodup, h.used, ?_⟩, ?_⟩
  · intro i e hi
    rw [hat] at hi
    split at hi
    · rename_i his
      exact his ▸ h.all s old hold
    · exact h.all i e hi
  · rw [OrderedMap.insert, h.find_eq_some hold hkey, Option.isSome_some, if_pos rfl, contents, contents, map_map,
      map_filterMap, map_filterMap]
    refine filterMap_congr ?_
    intro i _
    rw [hat]
    rcases eq_or_ne i s with rfl | hne
    · rw [if_pos rfl, hold]
      simp [pair, hkey]
    · rw [if_neg hne]
      cases hi : d.table.entryAt i with
      | none => rfl
      | some e => simp [pair, h.other_key hold hkey hne hi]

theorem addEntry [EquivBEq K] (h : Holds d slots) (hs : s < d.table.capacity)
    (hempty : d.table.ctrl s = ctrlEmpty) (hhash : entry.hash = hash entry.key)
    (hreach : d.table.Reaches (· ≠ ctrlEmpty) entry.hash s)
    (hnew : ∀ i entry', d.table.entryAt i = some entry' → (entry'.key == entry.key) = false)
    (hroom : 0 < d.table.growthLeft) :
    ∃ d', d.addEntry s entry = .ok d' ∧ 0 ≤ d'.table.growthLeft ∧ d'.table.entryAt s = some entry ∧
      Holds d' (slots ++ [s]) ∧
      contents d'.table (slots ++ [s]) = contents d.table slots ++ [(entry.key, entry.value)] := by
  have hat := entryAt_withEntry d.table hs entry
  have hfresh : s ∉ slots := fun hmem => (h.used s hmem).2 hempty
  have hlast : ((d.table.withEntry s entry).counted (d.table.len + 1) (d.table.growthLeft - 1)).entryAt s = some entry := by
    rw [counted_entryAt, hat, if_pos rfl]
  refine ⟨{ table := (d.table.withEntry s entry).counted (d.table.len + 1) (d.table.growthLeft - 1),
            order := d.order ++ [Int32.ofNat s] }, ?_, ?_, hlast, ⟨?_, ?_, ?_, ?_, ?_⟩, ?_⟩
  · rw [Dict.addEntry, place_ok d.table hs, ok_bind]
    rfl
  · change 0 ≤ d.table.growthLeft - 1
    omega
  · exact h.sound.insert hs hempty hhash hreach hnew hroom
  · rw [map_append, h.order]
    rfl
  · exact nodup_append.2 ⟨h.nodup, nodup_singleton s, fun i hi j hj => by
      rw [mem_singleton.1 hj]
      rintro rfl
      exact hfresh hi⟩
  · intro i hi
    rw [counted_ctrl, counted_capacity]
    rcases mem_append.1 hi with hmem | hmem
    · have hused := h.used i hmem
      refine ⟨hused.1, ?_⟩
      rw [withEntry_ctrl d.table s entry hused.1, if_neg (by rintro rfl; exact hfresh hmem)]
      exact hused.2
    · rw [mem_singleton.1 hmem]
      refine ⟨hs, ?_⟩
      rw [withEntry_ctrl d.table s entry hs, if_pos rfl]
      exact ne_empty_of_isOccupied (isOccupied_h2 _)
  · intro i e hi
    rw [counted_entryAt, hat] at hi
    split at hi
    · rename_i his
      exact mem_append_right _ (mem_singleton.2 his)
    · exact mem_append_left _ (h.all i e hi)
  · rw [contents_append, contents_singleton hlast, contents_congr fun i hi => ?_]
    · rfl
    · rw [counted_entryAt, hat, if_neg (by rintro rfl; exact hfresh hi)]

omit [BEq K] [Hashable K] in
theorem takeSlot_ok (hat : table.entryAt s = some entry) :
    takeSlot table s = .ok ((table.withTombstone s).counted (table.len - 1) table.growthLeft, entry) := by
  obtain ⟨hs, -, hslot⟩ := entryAt_eq_some.1 hat
  have hs' : s < (table.dropSlot s).capacity := hs
  rw [takeSlot, readSlot_ok hs hslot, ok_bind, setCtrl_ok _ hs', ok_bind]
  rfl

theorem delete (h : Holds d slots) (hold : d.table.entryAt s = some old) :
    Holds { d with table := (d.table.withTombstone s).counted (d.table.len - 1) d.table.growthLeft } slots := by
  refine ⟨h.sound.delete hold, h.order, h.nodup, ?_, ?_⟩
  · intro i hi
    have hused := h.used i hi
    refine ⟨hused.1, ?_⟩
    rw [counted_ctrl, withTombstone_ctrl d.table s hused.1]
    split
    · exact deleted_ne_empty
    · exact hused.2
  · intro i e hi
    rw [counted_entryAt, entryAt_withTombstone] at hi
    split at hi
    · cases hi
    · exact h.all i e hi

theorem contents_delete [EquivBEq K] (h : Holds d slots)
    (hold : d.table.entryAt s = some old) (hkey : (old.key == key) = true) :
    contents ((d.table.withTombstone s).counted (d.table.len - 1) d.table.growthLeft) slots =
      erase (contents d.table slots) key := by
  rw [erase, contents, contents, filter_map, filter_filterMap]
  congr 1
  refine filterMap_congr ?_
  intro i _
  rw [counted_entryAt, entryAt_withTombstone]
  rcases eq_or_ne i s with rfl | hne
  · rw [if_pos rfl, hold]
    simp [Option.filter, pair, hkey]
  · rw [if_neg hne]
    cases hi : d.table.entryAt i with
    | none => rfl
    | some e => simp [Option.filter, pair, h.other_key hold hkey hne hi]

end Holds

section Lawful

variable [EquivBEq K] [LawfulHashable K] {d : Dict K V} {l : List (K × V)}

theorem Full.findSlot (h : Full d l) (key : K) : ∃ slots s, Holds d slots ∧ contents d.table slots = l ∧
    ((d.table.findSlot (hash key) key = .ok (true, s) ∧ ∃ entry, d.table.entryAt s = some entry ∧
        (entry.key == key) = true ∧ OrderedMap.find l key = some (pair entry)) ∨
      (d.table.findSlot (hash key) key = .ok (false, s) ∧ s < d.table.capacity ∧ d.table.ctrl s = ctrlEmpty ∧
        d.table.Reaches (· ≠ ctrlEmpty) (hash key) s ∧
        (∀ i entry, d.table.entryAt i = some entry → (entry.key == key) = false) ∧ OrderedMap.find l key = none)) := by
  obtain ⟨slots, hholds, rfl⟩ := h
  obtain ⟨found, s, hfind, htrue, hfalse⟩ := hholds.sound.findSlot_spec key
  refine ⟨slots, s, hholds, rfl, ?_⟩
  cases found with
  | true =>
    obtain ⟨entry, hat, hkey⟩ := htrue rfl
    exact .inl ⟨hfind, entry, hat, hkey, hholds.find_eq_some hat hkey⟩
  | false =>
    obtain ⟨hs, hempty, hreach, hnone⟩ := hfalse rfl
    exact .inr ⟨hfind, hs, hempty, hreach, hnone, Holds.find_eq_none hnone slots⟩

section

variable (h : Represents d l)
include h

theorem Represents.find (key : K) : d.find key = .ok ((OrderedMap.find l key).map Prod.snd) := by
  rcases h with ⟨rfl, rfl⟩ | h
  · rfl
  · obtain ⟨slots, s, -, -, ⟨hfind, entry, hat, -, hlist⟩ | ⟨hfind, -, -, -, -, hlist⟩⟩ := h.findSlot key
    · simp only [Dict.find, hfind, ok_bind, if_true, readSlot_of_entryAt hat, hlist]
      rfl
    · rw [Dict.find, hfind, hlist]
      rfl

theorem Represents.contains (key : K) : d.contains key = .ok (OrderedMap.find l key).isSome := by
  rcases h with ⟨rfl, rfl⟩ | h
  · rfl
  · obtain ⟨slots, s, -, -, ⟨hfind, entry, -, -, hlist⟩ | ⟨hfind, -, -, -, -, hlist⟩⟩ := h.findSlot key
    all_goals
      rw [Dict.contains, hfind, hlist]
      rfl

/-- Where an entry goes once room has been made: it replaces another, or it is appended. -/
theorem Represents.slotFor (hfits : d.Fits) (entry : SwissTableEntry K V)
    (hhash : entry.hash = hash entry.key) : ∃ d1 s, d.ensureCapacity = .ok d1 ∧ Full d1 l ∧
      ((d1.table.findSlot entry.hash entry.key = .ok (true, s) ∧ ∃ old, d1.table.entryAt s = some old ∧
          OrderedMap.find l entry.key = some (pair old) ∧
          Full { d1 with table := d1.table.writeSlot s entry } (OrderedMap.insert l entry.key entry.value)) ∨
        (d1.table.findSlot entry.hash entry.key = .ok (false, s) ∧ OrderedMap.find l entry.key = none ∧
          ∃ d', d1.addEntry s entry = .ok d' ∧ d1.placeNewEntry s entry = .ok d' ∧ d'.table.entryAt s = some entry ∧
            Full d' (OrderedMap.insert l entry.key entry.value))) := by
  obtain ⟨d1, hensure, hfull, hroom⟩ := h.ensureCapacity hfits
  obtain ⟨slots, s, hholds, rfl, hcase⟩ := hfull.findSlot entry.key
  rw [← hhash] at hcase
  refine ⟨d1, s, hensure, hfull, ?_⟩
  rcases hcase with ⟨hfind, old, hat, hkey, hlist⟩ | ⟨hfind, hs, hempty, hreach, hnone, hlist⟩
  · obtain ⟨hholds', hcont⟩ := hholds.overwrite hat hkey hhash
    exact .inl ⟨hfind, old, hat, hlist, slots, hholds', hcont⟩
  · obtain ⟨d', hadd, hgrow, hat, hholds', hcont⟩ := hholds.addEntry hs hempty hhash hreach hnone hroom
    refine .inr ⟨hfind, hlist, d', hadd, ?_, hat, slots ++ [s], hholds', ?_⟩
    · rw [placeNewEntry, hadd, ok_bind, if_pos hgrow]
      rfl
    · rw [OrderedMap.insert, hlist]
      exact hcont

theorem Represents.insertEntry (hfits : d.Fits) (entry : SwissTableEntry K V) (hhash : entry.hash = hash entry.key) :
    ∃ d', d.insertEntry entry = .ok d' ∧ Full d' (OrderedMap.insert l entry.key entry.value) := by
  obtain ⟨d1, s, hensure, -, ⟨hfind, old, hat, -, hfull⟩ | ⟨hfind, -, d', -, hplace, -, hfull⟩⟩ :=
    h.slotFor hfits entry hhash
  · refine ⟨_, ?_, hfull⟩
    simp only [Dict.insertEntry, hensure, ok_bind, hfind, if_true, readSlot_of_entryAt hat]
    rfl
  · refine ⟨d', ?_, hfull⟩
    simp only [Dict.insertEntry, hensure, ok_bind, hfind, Bool.false_eq_true, if_false, hplace]

theorem Represents.insert (hfits : d.Fits) (key : K) (value : V) :
    ∃ d' displaced, d.insert key value = .ok (d', displaced) ∧ displaced.map pair = OrderedMap.find l key ∧
      Full d' (OrderedMap.insert l key value) := by
  obtain ⟨d1, s, hensure, -, ⟨hfind, old, hat, hlist, hfull⟩ | ⟨hfind, hlist, d', -, hplace, -, hfull⟩⟩ :=
    h.slotFor hfits ⟨hash key, key, value⟩ rfl
  · refine ⟨_, some old, ?_, hlist.symm, hfull⟩
    simp only [Dict.insert, hensure, ok_bind, hfind, if_true, readSlot_of_entryAt hat]
    rfl
  · refine ⟨d', none, ?_, hlist.symm, hfull⟩
    simp only [Dict.insert, hensure, ok_bind, hfind, Bool.false_eq_true, if_false, hplace]
    rfl

theorem Represents.setdefault (hfits : d.Fits) (key : K) (default : V) :
    ∃ d', d.setdefault key default = .ok (d', ((OrderedMap.find l key).map Prod.snd).getD default) ∧
      Full d' (OrderedMap.setdefault l key default) := by
  obtain ⟨d1, s, hensure, hfull, ⟨hfind, old, hat, hlist, -⟩ | ⟨hfind, hlist, d', hadd, -, hat, hfull'⟩⟩ :=
    h.slotFor hfits ⟨hash key, key, default⟩ rfl
  · obtain ⟨hs, hocc, -⟩ := entryAt_eq_some.1 hat
    rw [OrderedMap.setdefault, hlist]
    refine ⟨d1, ?_, hfull⟩
    simp only [Dict.setdefault, hensure, ok_bind, hfind, if_true, readCtrl_ok hs, hocc, readSlot_of_entryAt hat]
    rfl
  · rw [OrderedMap.insert, hlist] at hfull'
    rw [OrderedMap.setdefault, hlist]
    refine ⟨d', ?_, hfull'⟩
    simp only [Dict.setdefault, hensure, ok_bind, hfind, Bool.false_eq_true, if_false, hadd, readSlot_of_entryAt hat]
    rfl

theorem Represents.popValue (key : K) :
    ∃ d', d.popValue key = .ok (d', (OrderedMap.find l key).map Prod.snd) ∧ Represents d' (OrderedMap.erase l key) := by
  rcases h with ⟨rfl, rfl⟩ | h
  · exact ⟨init, rfl, .inl ⟨rfl, rfl⟩⟩
  · obtain ⟨slots, s, hholds, rfl, ⟨hfind, entry, hat, hkey, hlist⟩ | ⟨hfind, -, -, -, -, hlist⟩⟩ := h.findSlot key
    · obtain ⟨hs, hocc, -⟩ := entryAt_eq_some.1 hat
      refine ⟨_, ?_, .inr ⟨slots, hholds.delete hat, hholds.contents_delete hat hkey⟩⟩
      simp only [popValue, hfind, ok_bind, if_true, readCtrl_ok hs, hocc, Holds.takeSlot_ok hat, hlist]
      rfl
    · rw [erase_of_find_none hlist]
      refine ⟨d, ?_, .inr ⟨slots, hholds, rfl⟩⟩
      rw [popValue, hfind, hlist]
      rfl

end

end Lawful

theorem Full.empty (hsound : table.Sound) (hnone : ∀ i, table.entryAt i = none) :
    Full { table, order := [] } ([] : List (K × V)) := by
  refine ⟨[], ⟨hsound, rfl, nodup_nil, by simp, fun s entry hat => ?_⟩, rfl⟩
  rw [hnone s] at hat
  cases hat

/-- The loop of `popitem`: the slots behind `before` have been found free. -/
theorem Holds.popitemFrom {pre after : List ℕ} (h : Holds d (pre ++ after)) (hfits : d.Fits)
    (hafter : ∀ s ∈ after, d.table.entryAt s = none) :
    match (contents d.table pre).getLast? with
    | some p => ∃ d' entry, d.popitemFrom pre.length = .ok (d', .ok entry) ∧ pair entry = p ∧
        Full d' (contents d.table pre).dropLast
    | none => ∃ d', d.popitemFrom pre.length = .ok (d', .error .emptyDict) ∧ Full d' [] := by
  induction pre using reverseRecOn generalizing after with
  | nil =>
    refine ⟨{ d with order := [] }, rfl, Full.empty h.sound fun s => Option.eq_none_iff_forall_ne_some.mpr fun entry hat => ?_⟩
    rw [hafter s (h.all s entry hat)] at hat
    cases hat
  | append_singleton pre s ih =>
    have hs : s ∈ pre ++ [s] ++ after := by simp
    have hlen : (pre ++ [s]).length = pre.length + 1 := by simp
    have hget : d.order[pre.length]? = some (Int32.ofNat s) := by
      rw [h.order]
      simp
    rw [hlen, Dict.popitemFrom, hget]
    simp only
    rw [h.readCtrl_ok hfits hs, ok_bind]
    have hocc := h.isSome_entryAt hs
    cases hat : d.table.entryAt s with
    | none =>
      rw [hat, Option.isSome_none] at hocc
      have hcont : contents d.table (pre ++ [s]) = contents d.table pre := by
        simp [contents, hat]
      rw [hcont, ← hocc, if_neg (by simp)]
      have hmove : Holds d (pre ++ s :: after) := by simpa using h
      refine ih hmove ?_
      intro i hi
      rcases mem_cons.1 hi with rfl | hi
      · exact hat
      · exact hafter i hi
    | some entry =>
      rw [hat, Option.isSome_some] at hocc
      have hcont : contents d.table (pre ++ [s]) = contents d.table pre ++ [pair entry] := by
        rw [contents_append, contents_singleton hat]
      have hdeleted := h.delete hat
      have hfresh : s ∉ pre := by
        have hnd := h.nodup
        rw [append_assoc, nodup_append] at hnd
        exact fun hmem => hnd.2.2 s hmem s (by simp) rfl
      rw [hcont, getLast?_concat, ← hocc, if_pos rfl, h.toInt_eq hfits hs, Int.toNat_natCast, takeSlot_ok hat, ok_bind]
      refine ⟨_, entry, rfl, rfl, pre, ⟨hdeleted.sound, ?_, ?_, ?_, ?_⟩, ?_⟩
      · rw [h.order]
        simp
      · exact (nodup_append.1 (nodup_append.1 h.nodup).1).1
      · intro i hi
        exact hdeleted.used i (by simp [hi])
      · intro i e hi
        have hmem := hdeleted.all i e hi
        rw [counted_entryAt, entryAt_withTombstone] at hi
        split at hi
        · cases hi
        · rename_i hne
          rcases mem_append.1 hmem with hmem | hmem
          · rcases mem_append.1 hmem with hmem | hmem
            · exact hmem
            · exact absurd (mem_singleton.1 hmem) hne
          · rw [hafter i hmem] at hi
            cases hi
      · rw [dropLast_concat]
        refine contents_congr ?_
        intro i hi
        rw [counted_entryAt, entryAt_withTombstone, if_neg (by rintro rfl; exact hfresh hi)]

theorem Represents.popitem (h : Represents d l) (hfits : d.Fits) :
    match l.getLast? with
    | some p => ∃ d' entry, d.popitem = .ok (d', .ok entry) ∧ pair entry = p ∧ Represents d' l.dropLast
    | none => ∃ d', d.popitem = .ok (d', .error .emptyDict) ∧ Represents d' l := by
  rcases h with ⟨rfl, rfl⟩ | ⟨slots, hholds, rfl⟩
  · exact ⟨init, rfl, .inl ⟨rfl, rfl⟩⟩
  · have hwhole : Holds d (slots ++ []) := by simpa using hholds
    have hloop := hwhole.popitemFrom hfits (by simp)
    have hlen : d.order.length = slots.length := by rw [hholds.order, length_map]
    rw [popitem, hlen]
    cases hlast : (contents d.table slots).getLast? with
    | some p =>
      rw [hlast] at hloop
      obtain ⟨d', entry, hpop, hpair, hfull⟩ := hloop
      exact ⟨d', entry, hpop, hpair, .inr hfull⟩
    | none =>
      rw [hlast] at hloop
      obtain ⟨d', hpop, hfull⟩ := hloop
      refine ⟨d', hpop, .inr ?_⟩
      rw [getLast?_eq_none_iff.1 hlast]
      exact hfull

section

variable {d : Dict K V} {slots : List ℕ} (h : Holds d slots) (hfits : d.Fits)
include h hfits

theorem Holds.nextFrom {rest : List ℕ}
    (hrest : ∀ s ∈ rest, s ∈ slots) {seen : ℕ} (hseen : seen + (rest.filterMap d.table.entryAt).length = d.len)
    (hmore : seen < d.len) :
    ∃ entry, ∃ rest' : List ℕ, d.nextFrom seen (rest.map Int32.ofNat) = .ok (some (entry, ⟨rest'.map Int32.ofNat, seen + 1⟩)) ∧
      rest.filterMap d.table.entryAt = entry :: rest'.filterMap d.table.entryAt ∧ rest'.length < rest.length ∧
      ∀ s ∈ rest', s ∈ slots := by
  induction rest with
  | nil =>
    simp only [filterMap_nil, length_nil, Nat.add_zero] at hseen
    omega
  | cons s rest ih =>
    have hs := hrest s mem_cons_self
    have hrest' := forall_mem_of_forall_mem_cons hrest
    have hocc := h.isSome_entryAt hs
    rw [map_cons, Dict.nextFrom, h.readCtrl_ok hfits hs, ok_bind]
    cases hat : d.table.entryAt s with
    | none =>
      rw [hat, Option.isSome_none] at hocc
      rw [filterMap_cons_none hat] at hseen ⊢
      rw [← hocc, if_neg (by simp)]
      obtain ⟨entry, rest', hnext, hlist, hlt, hmem⟩ := ih hrest' hseen
      exact ⟨entry, rest', hnext, hlist, by rw [length_cons]; omega, hmem⟩
    | some entry =>
      rw [hat, Option.isSome_some] at hocc
      rw [← hocc, if_pos rfl, h.toInt_eq hfits hs, readSlot_of_entryAt hat, ok_bind]
      exact ⟨entry, rest, rfl, filterMap_cons_some hat, by simp, hrest'⟩

theorem Holds.entriesFrom {turns : ℕ}
    {rest : List ℕ} (hrest : ∀ s ∈ rest, s ∈ slots) (hturns : rest.length < turns) {seen : ℕ}
    (hseen : seen + (rest.filterMap d.table.entryAt).length = d.len) :
    d.entriesFrom turns ⟨rest.map Int32.ofNat, seen⟩ = .ok (rest.filterMap d.table.entryAt) := by
  induction turns generalizing rest seen with
  | zero => omega
  | succ turns ih =>
    rw [Dict.entriesFrom, Dict.next]
    simp only
    rcases Nat.lt_or_ge seen d.len with hmore | hend
    · obtain ⟨entry, rest', hnext, hlist, hlt, hmem⟩ := h.nextFrom hfits hrest hseen hmore
      rw [hlist, length_cons] at hseen
      rw [if_neg (by omega), hnext, ok_bind]
      simp only
      rw [ih hmem (by omega) (by omega), hlist]
      rfl
    · have hnil : rest.filterMap d.table.entryAt = [] := eq_nil_of_length_eq_zero (by omega)
      rw [if_pos hend, hnil]
      rfl

theorem Holds.items : d.items = .ok (slots.filterMap d.table.entryAt) := by
  have hlen := h.length_contents
  rw [contents, length_map] at hlen
  rw [Dict.items, h.order]
  exact h.entriesFrom hfits (fun s hs => hs) (by rw [length_map]; omega) (by rw [hlen, Nat.zero_add]; rfl)

theorem Holds.reversed : d.reversed = .ok (slots.filterMap d.table.entryAt).reverse := by
  have hlen := h.length_contents
  rw [contents, length_map] at hlen
  rw [Dict.reversed, h.order, ← map_reverse, ← filterMap_reverse]
  refine h.entriesFrom hfits (fun s hs => mem_reverse.1 hs) ?_ ?_
  · rw [length_map, length_reverse]
    omega
  · rw [filterMap_reverse, length_reverse, hlen, Nat.zero_add]
    rfl

end

theorem Represents.items (h : Represents d l) (hfits : d.Fits) :
    ∃ entries, d.items = .ok entries ∧ entries.map pair = l ∧ ∀ entry ∈ entries, entry.hash = hash entry.key := by
  rcases h with ⟨rfl, rfl⟩ | ⟨slots, hholds, rfl⟩
  · exact ⟨[], rfl, rfl, by simp⟩
  · refine ⟨_, hholds.items hfits, rfl, ?_⟩
    intro entry hent
    obtain ⟨s, -, hat⟩ := mem_filterMap.1 hent
    exact (hholds.sound.slots_of_entryAt hat).2.2.2.2

theorem Represents.reversed (h : Represents d l) (hfits : d.Fits) :
    ∃ entries, d.reversed = .ok entries ∧ entries.map pair = l.reverse := by
  rcases h with ⟨rfl, rfl⟩ | ⟨slots, hholds, rfl⟩
  · exact ⟨[], rfl, rfl⟩
  · refine ⟨_, hholds.reversed hfits, ?_⟩
    rw [map_reverse]
    rfl

theorem Represents.len (h : Represents d l) : d.len = l.length := by
  rcases h with ⟨rfl, rfl⟩ | ⟨slots, hholds, rfl⟩
  · rfl
  · exact hholds.length_contents.symm

theorem Represents.init : Represents (init : Dict K V) [] := .inl ⟨rfl, rfl⟩

omit [BEq K] [Hashable K] in
theorem entryAt_allocated (capacity len i : ℕ) : (allocated capacity len : SwissTable K V).entryAt i = none := by
  unfold entryAt
  split <;> rfl

theorem Represents.initCapacity (capacity : ℤ) : Represents (initCapacity capacity : Dict K V) [] := by
  unfold Dict.initCapacity SwissTable.initCapacity
  split
  · exact .init
  · obtain ⟨k, hk⟩ := (nextPowerOfTwo_spec (-(-(capacity * 8).bmod (2 ^ 64) / 7)).toNat).1
    refine .inr (Full.empty (Sound.allocated (n := max k 4) (by omega) ?_) (entryAt_allocated _ _))
    rw [hk, initialCapacity]
    rcases Nat.le_total k 4 with hle | hle
    · rw [Nat.max_eq_right hle]
      exact Nat.max_eq_right (Nat.pow_le_pow_right (by decide) hle)
    · rw [Nat.max_eq_left hle]
      exact Nat.max_eq_left (Nat.pow_le_pow_right (n := 2) (by decide) hle)

theorem Represents.clear (h : Represents d l) : Represents d.clear [] := by
  rcases h with ⟨rfl, rfl⟩ | ⟨slots, hholds, rfl⟩
  · exact .init
  · have hpos := hholds.sound.shape.pos
    obtain ⟨n, hn, hpower⟩ := hholds.sound.shape.power
    rw [Dict.clear, SwissTable.clear, if_neg (by omega)]
    exact .inr (Full.empty (Sound.allocated hn hpower) (entryAt_allocated _ _))

theorem Represents.copy (h : Represents d l) : Represents d.copy l := by
  rcases h with ⟨rfl, rfl⟩ | ⟨slots, hholds, rfl⟩
  · exact .init
  · have hat := entryAt_copy hholds.sound.shape.pos
    obtain ⟨hctrl, hcap⟩ := copy_ctrl hholds.sound.shape.pos
    refine .inr ⟨slots, ⟨hholds.sound.copy, hholds.order, hholds.nodup, ?_, ?_⟩, contents_congr fun s _ => hat s⟩
    · intro s hs
      change s < d.table.copy.capacity ∧ d.table.copy.ctrl s ≠ ctrlEmpty
      rw [hctrl, hcap]
      exact hholds.used s hs
    · intro s entry hs
      exact hholds.all s entry ((hat s).symm.trans hs)

theorem Represents.insertEntries [EquivBEq K] [LawfulHashable K]
    (h : Represents d l) {entries : List (SwissTableEntry K V)} (hhash : ∀ entry ∈ entries, entry.hash = hash entry.key)
    (hfits : ∀ k < entries.length, ∀ d', (entries.take k).foldlM Dict.insertEntry d = .ok d' → d'.Fits) :
    ∃ d', entries.foldlM Dict.insertEntry d = .ok d' ∧ Represents d' (OrderedMap.update l (entries.map pair)) := by
  induction entries generalizing d l with
  | nil => exact ⟨d, rfl, h⟩
  | cons entry entries ih =>
    obtain ⟨d1, hinsert, hfull⟩ := h.insertEntry (hfits 0 (by simp) d rfl) entry (hhash entry mem_cons_self)
    obtain ⟨d', hfold, hrep⟩ := ih (.inr hfull) (fun e he => hhash e (mem_cons_of_mem _ he))
      (fun k hk d' hd' => by
        refine hfits (k + 1) (by simpa using hk) d' ?_
        rw [take_succ_cons, foldlM_cons, hinsert]
        exact hd')
    refine ⟨d', ?_, hrep⟩
    rw [foldlM_cons, hinsert]
    exact hfold

end MojoProse.Stdlib.Dict
