import MojoProse.Schemes.Guard
import MojoProse.Stdlib.SwissTable

/-! What the probe loops of `SwissTable` find, and that they end. -/

namespace MojoProse.Stdlib

open Schemes List Nat Stdlib.Group

theorem isOccupied_h2 (hash : UInt64) : isOccupied (h2 hash) = true := by
  have hlt := hash.toNat_lt
  rw [isOccupied, decide_eq_true_eq, UInt8.lt_iff_toNat_lt, h2, ctrlDeleted]
  change hash.toNat >>> 57 % 2 ^ 8 < 128
  omega

theorem isOccupied_empty : isOccupied ctrlEmpty = false := by decide

theorem isOccupied_deleted : isOccupied ctrlDeleted = false := by decide

theorem deleted_ne_empty : ctrlDeleted ≠ ctrlEmpty := by decide

theorem ne_empty_of_isOccupied {c : UInt8} (h : isOccupied c = true) : c ≠ ctrlEmpty := by
  rintro rfl
  cases h

theorem ne_deleted_of_isOccupied {c : UInt8} (h : isOccupied c = true) : c ≠ ctrlDeleted := by
  rintro rfl
  cases h

theorem ge_deleted_iff {c : UInt8} : (c ≥ ctrlDeleted) ↔ isOccupied c = false := by
  rw [isOccupied, decide_eq_false_iff_not, UInt8.not_lt]

namespace Group

variable {cond : UInt8 → Bool} {group : Group}

theorem mask_eq_nil (h : group.mask cond = []) {bit : ℕ} (hbit : bit < groupWidth) : cond (group bit) = false := by
  have := filter_eq_nil_iff.1 h bit (mem_range.2 hbit)
  simpa using this

theorem mem_mask {bit : ℕ} : bit ∈ group.mask cond ↔ bit < groupWidth ∧ cond (group bit) = true := by
  rw [mask, mem_filter, mem_range]

theorem mask_eq_cons {bit : ℕ} {rest : List ℕ} (h : group.mask cond = bit :: rest) :
    bit < groupWidth ∧ cond (group bit) = true := mem_mask.1 (h ▸ mem_cons_self)

end Group

namespace SwissTable

variable {K V : Type} {entry : SwissTableEntry K V}

/-- The capacity is a power of two that groups divide, and the first group is repeated behind the last slot. -/
structure Shape (t : SwissTable K V) : Prop where
  power : ∃ n, 4 ≤ n ∧ t.capacity = 2 ^ n
  mirror : ∀ b < groupWidth, t.ctrl (t.capacity + b) = t.ctrl b

namespace Shape

variable {t : SwissTable K V} (h : t.Shape)
include h

theorem groupWidth_dvd : groupWidth ∣ t.capacity := by
  obtain ⟨n, hn, hcap⟩ := h.power
  rw [hcap]
  exact pow_dvd_pow 2 hn

theorem groupWidth_le : groupWidth ≤ t.capacity := by
  obtain ⟨n, hn, hcap⟩ := h.power
  rw [hcap]
  exact Nat.pow_le_pow_right Nat.two_pos hn

theorem pos : 0 < t.capacity := lt_of_lt_of_le (by decide) h.groupWidth_le

theorem land (x : ℕ) : x &&& (t.capacity - 1) = x % t.capacity := by
  obtain ⟨n, -, hcap⟩ := h.power
  rw [hcap, and_two_pow_sub_one_eq_mod]

theorem ctrl_add {pos b : ℕ} (hpos : pos < t.capacity) (hb : b < groupWidth) :
    t.ctrl (pos + b) = t.ctrl ((pos + b) % t.capacity) := by
  have hwidth := h.groupWidth_le
  rcases lt_or_ge (pos + b) t.capacity with hlt | hge
  · rw [mod_eq_of_lt hlt]
  · have hover : (pos + b) % t.capacity = pos + b - t.capacity := by
      rw [mod_eq_sub_mod hge, mod_eq_of_lt (by omega)]
    have hmirror := h.mirror (pos + b - t.capacity) (by omega)
    rw [Nat.add_sub_cancel' hge] at hmirror
    rw [hover, hmirror]

end Shape

abbrev probe (t : SwissTable K V) (hash : UInt64) (k b : ℕ) : ℕ := probeSlot t.capacity groupWidth hash.toNat k b

section

variable {t : SwissTable K V} (h : t.Shape) (hash : UInt64)
include h hash

theorem Shape.probe_lt (k b : ℕ) : t.probe hash k b < t.capacity := probeSlot_lt h.pos ..

theorem Shape.group_probe (k : ℕ) : ∃ group : Group, t.group (t.probe hash k 0) = .ok group ∧
      ∀ b < groupWidth, group b = t.ctrl (t.probe hash k b) := by
  refine ⟨fun bit => t.ctrl (t.probe hash k 0 + bit), ?_, ?_⟩
  · rw [group, if_pos (le_of_lt (h.probe_lt hash k 0))]
    rfl
  · intro b hb
    simp only
    rw [h.ctrl_add (h.probe_lt hash k 0) hb, probeSlot_add]

theorem Shape.start_eq : hash.toNat &&& (t.capacity - 1) = t.probe hash 0 0 := by
  rw [h.land, probe, probeSlot, zero_mul]
  rfl

theorem Shape.next_eq (k : ℕ) : (t.probe hash k 0 + groupWidth) &&& (t.capacity - 1) = t.probe hash (k + 1) 0 := by
  rw [h.land, probeSlot_succ]

theorem Shape.slot_eq (k b : ℕ) : (t.probe hash k 0 + b) &&& (t.capacity - 1) = t.probe hash k b := by
  rw [h.land, probeSlot_add]

/-- A search for the hash passes only slots with a byte that has `P`, up to the group of `s`. -/
abbrev Reaches (t : SwissTable K V) (P : UInt8 → Prop) (hash : UInt64) (s : ℕ) : Prop :=
  Reach t.capacity groupWidth hash.toNat (fun i => P (t.ctrl i)) s

theorem findEmptySlotFrom_spec {turns k : ℕ} (hturns : k + turns = t.capacity / groupWidth)
    (hbef : Before t.capacity groupWidth hash.toNat (fun i => isOccupied (t.ctrl i) = true) k)
    (hfree : ∃ s < t.capacity, isOccupied (t.ctrl s) = false) :
    ∃ s, t.findEmptySlotFrom turns (t.probe hash k 0) = .ok s ∧ s < t.capacity ∧ isOccupied (t.ctrl s) = false ∧
      t.Reaches (fun c => isOccupied c = true) hash s := by
  induction turns generalizing k with
  | zero =>
    -- All groups have been passed, so that no slot is free.
    obtain ⟨s, hs, hsfree⟩ := hfree
    obtain ⟨k', hk', b, hb, rfl⟩ := exists_probeSlot (by decide) h.groupWidth_dvd hash.toNat hs
    exact absurd (hbef k' (by omega) b hb) (by simp [hsfree])
  | succ turns ih =>
    obtain ⟨group, hgroup, hbytes⟩ := h.group_probe hash k
    rw [findEmptySlotFrom, hgroup, ok_bind]
    cases hmask : group.matchEmptyOrDeleted with
    | cons bit rest =>
      obtain ⟨hbit, hcond⟩ := mask_eq_cons hmask
      rw [decide_eq_true_eq, ge_deleted_iff, hbytes bit hbit] at hcond
      exact ⟨t.probe hash k bit, congrArg Except.ok (h.slot_eq ..), h.probe_lt .., hcond, k, bit, hbit, rfl, hbef⟩
    | nil =>
      rw [h.next_eq]
      refine ih (by omega) (hbef.succ ?_)
      intro b hb
      have hcond := mask_eq_nil hmask hb
      rw [decide_eq_false_iff_not, ge_deleted_iff, hbytes b hb] at hcond
      simpa using hcond

theorem findEmptySlot_spec (hfree : ∃ s < t.capacity, isOccupied (t.ctrl s) = false) :
    ∃ s, t.findEmptySlot hash = .ok s ∧ s < t.capacity ∧ isOccupied (t.ctrl s) = false ∧
      t.Reaches (fun c => isOccupied c = true) hash s := by
  rw [findEmptySlot, h.start_eq]
  exact findEmptySlotFrom_spec h hash (zero_add _) .zero hfree

end

def entryAt (t : SwissTable K V) (i : ℕ) : Option (SwissTableEntry K V) :=
  if i < t.capacity ∧ isOccupied (t.ctrl i) = true then t.slots i else none

theorem entryAt_eq_some {t : SwissTable K V} {i : ℕ} :
    t.entryAt i = some entry ↔ i < t.capacity ∧ isOccupied (t.ctrl i) = true ∧ t.slots i = some entry := by
  unfold entryAt
  split
  · rename_i h
    simp [h]
  · rename_i h
    constructor
    · intro hnone
      cases hnone
    · rintro ⟨hi, hocc, -⟩
      exact absurd ⟨hi, hocc⟩ h

theorem readSlot_ok {t : SwissTable K V} {i : ℕ} (hi : i < t.capacity)
    (h : t.slots i = some entry) : t.readSlot i = .ok entry := by
  rw [readSlot, if_pos (by omega), Int.toNat_natCast, h]
  rfl

variable [BEq K] [Hashable K]

/-- What holds of a table between two operations. -/
structure Sound (t : SwissTable K V) : Prop where
  shape : t.Shape
  special : ∀ i < t.capacity, isOccupied (t.ctrl i) = false → t.ctrl i = ctrlEmpty ∨ t.ctrl i = ctrlDeleted
  entry : ∀ i < t.capacity, isOccupied (t.ctrl i) = true →
    ∃ entry, t.slots i = some entry ∧ t.ctrl i = h2 entry.hash ∧ entry.hash = hash entry.key
  unique : ∀ i j entry entry', t.entryAt i = some entry → t.entryAt j = some entry' →
    (entry.key == entry'.key) = true → i = j
  reach : ∀ i entry, t.entryAt i = some entry → t.Reaches (· ≠ ctrlEmpty) entry.hash i
  len : t.len = slotCount t.capacity fun i => isOccupied (t.ctrl i) = true
  growth : t.growthLeft + slotCount t.capacity (fun i => t.ctrl i ≠ ctrlEmpty) = (t.capacity * 7 / 8 : ℕ)
  room : 0 ≤ t.growthLeft

/-- What a search ends with: the slot of the key, or an empty slot that a search for the key reaches. -/
def Finds (t : SwissTable K V) (key : K) (found : Bool) (s : ℕ) : Prop :=
  (found = true → ∃ entry, t.entryAt s = some entry ∧ (entry.key == key) = true) ∧
    (found = false → s < t.capacity ∧ t.ctrl s = ctrlEmpty ∧ t.Reaches (· ≠ ctrlEmpty) (hash key) s ∧
      ∀ i entry, t.entryAt i = some entry → (entry.key == key) = false)

namespace Sound

variable {t : SwissTable K V} (h : t.Sound)
include h

/-- An eighth of the slots is empty. -/
theorem count_lt : slotCount t.capacity (fun i => t.ctrl i ≠ ctrlEmpty) < t.capacity := by
  have hgrow := h.growth
  have hroom := h.room
  have hwidth := h.shape.groupWidth_le
  simp only [groupWidth] at hwidth
  omega

theorem exists_empty : ∃ s < t.capacity, t.ctrl s = ctrlEmpty := by
  obtain ⟨s, hs, hempty⟩ := exists_not_of_slotCount_lt h.count_lt
  exact ⟨s, hs, by simpa using hempty⟩

theorem slots_of_entryAt {i : ℕ} (hat : t.entryAt i = some entry) : i < t.capacity ∧ isOccupied (t.ctrl i) = true ∧
    t.slots i = some entry ∧ t.ctrl i = h2 entry.hash ∧ entry.hash = hash entry.key := by
  obtain ⟨hi, hocc, hslot⟩ := entryAt_eq_some.1 hat
  obtain ⟨entry', hslot', hbyte, hhash⟩ := h.entry i hi hocc
  rw [hslot] at hslot'
  cases hslot'
  exact ⟨hi, hocc, hslot, hbyte, hhash⟩

/-- The slots that the mask of a group names are tried one after the other. -/
theorem matchKey_spec (hashVal : UInt64) (key : K) (k : ℕ) {mask : List ℕ}
    (hmask : ∀ b ∈ mask, t.ctrl (t.probe hashVal k b) = h2 hashVal) :
    ∃ res, t.matchKey hashVal key (t.probe hashVal k 0) mask = .ok res ∧
      (∀ s, res = some s → ∃ entry, t.entryAt s = some entry ∧ (entry.key == key) = true) ∧
      (res = none → ∀ b ∈ mask, ∀ entry, t.entryAt (t.probe hashVal k b) = some entry →
        entry.hash = hashVal → (entry.key == key) = false) := by
  induction mask with
  | nil => exact ⟨none, rfl, by simp, by simp⟩
  | cons b mask ih =>
    obtain ⟨res, hres, hsome, hnone⟩ := ih fun b' hb' => hmask b' (mem_cons_of_mem _ hb')
    have hlt := h.shape.probe_lt hashVal k b
    have hocc : isOccupied (t.ctrl (t.probe hashVal k b)) = true := by
      rw [hmask b mem_cons_self]
      exact isOccupied_h2 _
    obtain ⟨entry, hslot, -⟩ := h.entry _ hlt hocc
    have hat : t.entryAt (t.probe hashVal k b) = some entry := entryAt_eq_some.2 ⟨hlt, hocc, hslot⟩
    rw [matchKey, h.shape.slot_eq, readSlot_ok hlt hslot, ok_bind]
    cases hcond : entry.hash == hashVal && entry.key == key with
    | true =>
      refine ⟨some (t.probe hashVal k b), rfl, ?_, by simp⟩
      intro s hs
      cases hs
      exact ⟨entry, hat, (Bool.and_eq_true_iff.1 hcond).2⟩
    | false =>
      refine ⟨res, hres, hsome, ?_⟩
      intro hres' b' hb' entry' hat' hhash
      rcases mem_cons.1 hb' with rfl | hb'
      · rw [hat] at hat'
        cases hat'
        simpa [hhash] using hcond
      · exact hnone hres' b' hb' entry' hat' hhash

theorem findSlotFrom_spec [EquivBEq K] [LawfulHashable K] (key : K) {turns k : ℕ}
    (hturns : k + turns = t.capacity / groupWidth)
    (hbef : Before t.capacity groupWidth (hash key).toNat (fun i => t.ctrl i ≠ ctrlEmpty) k)
    (hpassed : Before t.capacity groupWidth (hash key).toNat
      (fun i => ∀ entry, t.entryAt i = some entry → (entry.key == key) = false) k) :
    ∃ found s, t.findSlotFrom (hash key) key turns (t.probe (hash key) k 0) = .ok (found, s) ∧ t.Finds key found s := by
  induction turns generalizing k with
  | zero =>
    obtain ⟨s, hs, hempty⟩ := h.exists_empty
    obtain ⟨k', hk', b, hb, rfl⟩ := exists_probeSlot (by decide) h.shape.groupWidth_dvd (hash key).toNat hs
    exact absurd hempty (hbef k' (by omega) b hb)
  | succ turns ih =>
    obtain ⟨group, hgroup, hbytes⟩ := h.shape.group_probe (hash key) k
    have hmask : ∀ b ∈ group.matchH2 (h2 (hash key)), t.ctrl (t.probe (hash key) k b) = h2 (hash key) := by
      intro b hb
      obtain ⟨hb, hcond⟩ := mem_mask.1 hb
      rw [← hbytes b hb]
      exact eq_of_beq hcond
    obtain ⟨res, hres, hsome, hnone⟩ := h.matchKey_spec (hash key) key k hmask
    rw [findSlotFrom, hgroup, ok_bind, hres, ok_bind]
    cases res with
    | some s => exact ⟨true, s, rfl, fun _ => hsome s rfl, by simp⟩
    | none =>
      -- No slot of this group has the key: its byte would be the fingerprint.
      have hgroupNone : ∀ b < groupWidth, ∀ entry, t.entryAt (t.probe (hash key) k b) = some entry →
          (entry.key == key) = false := by
        intro b hb entry hat
        obtain ⟨-, -, -, hbyte, hhash⟩ := h.slots_of_entryAt hat
        cases hkey : entry.key == key with
        | false => rfl
        | true =>
          have hsame : entry.hash = hash key := by rw [hhash, hash_eq hkey]
          have hmem : b ∈ group.matchH2 (h2 (hash key)) := by
            refine mem_mask.2 ⟨hb, ?_⟩
            rw [hbytes b hb, hbyte, hsame, beq_self_eq_true]
          exact absurd hkey (by simp [hnone rfl b hmem entry hat hsame])
      cases hempty : group.matchEmpty with
      | cons bit rest =>
        obtain ⟨hbit, hcond⟩ := mask_eq_cons hempty
        have hbyte : t.ctrl (t.probe (hash key) k bit) = ctrlEmpty := by
          rw [← hbytes bit hbit]
          exact eq_of_beq hcond
        refine ⟨false, t.probe (hash key) k bit, congrArg (fun s => Except.ok (false, s)) (h.shape.slot_eq ..), by simp,
          fun _ => ⟨h.shape.probe_lt .., hbyte, ⟨k, bit, hbit, rfl, hbef⟩, ?_⟩⟩
        -- A slot with the key would have been reached before the empty one.
        intro i entry hat
        cases hkey : entry.key == key with
        | false => rfl
        | true =>
          have hreach := h.reach i entry hat
          rw [(h.slots_of_entryAt hat).2.2.2.2, hash_eq hkey] at hreach
          obtain ⟨k', hk', b', hb', rfl⟩ := hreach.le (k := k) hbit (by simp [hbyte])
          rw [hpassed.succ hgroupNone k' (lt_succ_of_le hk') b' hb' entry hat] at hkey
          cases hkey
      | nil =>
        rw [h.shape.next_eq]
        refine ih (by omega) (hbef.succ ?_) (hpassed.succ hgroupNone)
        intro b hb
        have hcond := mask_eq_nil hempty hb
        rw [hbytes b hb] at hcond
        simpa using hcond

theorem findSlot_spec [EquivBEq K] [LawfulHashable K] (key : K) :
    ∃ found s, t.findSlot (hash key) key = .ok (found, s) ∧ t.Finds key found s := by
  have hpos := h.shape.pos
  rw [findSlot, if_neg (by omega), h.shape.start_eq]
  exact h.findSlotFrom_spec key (zero_add _) .zero .zero

end Sound

end SwissTable

end MojoProse.Stdlib
