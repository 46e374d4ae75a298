import MojoProse.Schemes.MixedRadix

/-!
# Compact strides

Modes whose strides are the running products of the extents before them enumerate a range without
gaps. So do the same modes in any other order: an index map depends on the order of its modes only
by a reindexing (`bijOn_offset_of_perm_compact`).
-/

namespace MojoProse.Schemes.MixedRadix

open List Int

/-- Every stride is `acc` times the product of the extents before it. -/
def Compact : ℤ → List Mode → Prop
  | _, [] => True
  | acc, m :: ms => m.stride = acc ∧ Compact (acc * m.extent) ms

variable {acc : ℤ} {ms : List Mode}

theorem Compact.dvd (h : Compact acc ms) : ∀ m ∈ ms, acc ∣ m.stride := by
  induction ms generalizing acc with
  | nil => simp
  | cons m ms ih =>
    obtain ⟨hstride, hrest⟩ := h
    intro p hp
    rcases mem_cons.mp hp with rfl | hp
    · rw [hstride]
    · exact (dvd_mul_right _ _).trans (ih hrest p hp)

theorem Compact.pairwise (h : Compact acc ms) : ms.Pairwise fun p q => p.stride * p.extent ∣ q.stride := by
  induction ms generalizing acc with
  | nil => exact .nil
  | cons m ms ih =>
    obtain ⟨hstride, hrest⟩ := h
    refine pairwise_cons.mpr ⟨fun q hq => ?_, ih hrest⟩
    rw [hstride]
    exact hrest.dvd q hq

theorem Compact.stride_pos (hacc : 0 < acc) (hms : Positive ms) (h : Compact acc ms) : ∀ m ∈ ms, 0 < m.stride := by
  induction ms generalizing acc with
  | nil => simp
  | cons m ms ih =>
    obtain ⟨hm, hms⟩ := positive_cons.mp hms
    obtain ⟨hstride, hrest⟩ := h
    intro p hp
    rcases mem_cons.mp hp with rfl | hp
    · rwa [hstride]
    · exact ih (mul_pos hacc hm) hms hrest p hp

theorem Compact.sum_digits (hacc : 0 < acc) (hms : Positive ms) (h : Compact acc ms) (v : ℤ) :
    (ms.map fun m => v / m.stride % m.extent * m.stride).sum = acc * (v / acc % size ms) := by
  induction ms generalizing acc with
  | nil => simp
  | cons m ms ih =>
    obtain ⟨hm, hms⟩ := positive_cons.mp hms
    obtain ⟨hstride, hrest⟩ := h
    rw [map_cons, sum_cons, ih (mul_pos hacc hm) hms hrest, hstride, size_cons,
      emod_mul_eq hm, ediv_ediv_of_nonneg hacc.le]
    ring

theorem Compact.sum_last (h : Compact acc ms) :
    (ms.map fun m => (m.extent - 1) * m.stride).sum = acc * (size ms - 1) := by
  induction ms generalizing acc with
  | nil => simp
  | cons m ms ih =>
    obtain ⟨hstride, hrest⟩ := h
    rw [map_cons, sum_cons, ih hrest, hstride, size_cons]
    ring

/-- The index with given digits. -/
def index (digit : Mode → ℤ) : List Mode → ℤ
  | [] => 0
  | m :: ms => digit m + m.extent * index digit ms

theorem index_bound {digit : Mode → ℤ} (hdig : ∀ m ∈ ms, 0 ≤ digit m ∧ digit m < m.extent) :
    0 ≤ index digit ms ∧ index digit ms < size ms := by
  induction ms with
  | nil => exact ⟨le_rfl, one_pos⟩
  | cons m ms ih =>
    obtain ⟨⟨hlow, hhigh⟩, hrest⟩ := forall_mem_cons.mp hdig
    obtain ⟨h0, hlt⟩ := ih hrest
    have hm : 0 < m.extent := hlow.trans_lt hhigh
    have hstep : m.extent * (index digit ms + 1) ≤ m.extent * size ms := mul_le_mul_of_nonneg_left hlt hm.le
    rw [index, size_cons]
    exact ⟨add_nonneg hlow (mul_nonneg hm.le h0), by linarith [mul_add m.extent (index digit ms) 1]⟩

theorem offset_index {digit : Mode → ℤ} (hdig : ∀ m ∈ ms, 0 ≤ digit m ∧ digit m < m.extent) :
    offset ms (index digit ms) = (ms.map fun m => digit m * m.stride).sum := by
  induction ms with
  | nil => rfl
  | cons m ms ih =>
    obtain ⟨⟨hlow, hhigh⟩, hrest⟩ := forall_mem_cons.mp hdig
    have hm : 0 < m.extent := hlow.trans_lt hhigh
    rw [offset, index, add_mul_emod_self_left, emod_eq_of_lt hlow hhigh,
      add_mul_ediv_left _ _ hm.ne', ediv_eq_zero_of_lt hlow hhigh, zero_add, ih hrest,
      map_cons, sum_cons]

theorem sum_terms_le (hms : Positive ms) (hstride : ∀ m ∈ ms, 0 < m.stride) (i : ℤ) :
    0 ≤ offset ms i ∧ offset ms i ≤ (ms.map fun m => (m.extent - 1) * m.stride).sum := by
  induction ms generalizing i with
  | nil => exact ⟨le_rfl, le_rfl⟩
  | cons m ms ih =>
    obtain ⟨hm, hms⟩ := positive_cons.mp hms
    obtain ⟨hd, hstride⟩ := forall_mem_cons.mp hstride
    obtain ⟨h0, hle⟩ := ih hms hstride (i / m.extent)
    have hlow : 0 ≤ i % m.extent * m.stride := mul_nonneg (emod_nonneg _ hm.ne') hd.le
    have hhigh : i % m.extent * m.stride ≤ (m.extent - 1) * m.stride := by
      have := emod_lt_of_pos i hm
      exact mul_le_mul_of_nonneg_right (by omega) hd.le
    rw [offset, map_cons, sum_cons]
    exact ⟨add_nonneg hlow h0, add_le_add hhigh hle⟩

theorem bijOn_offset_of_perm_compact {ms ns : List Mode} (hperm : ms.Perm ns) (hms : Positive ms) (hns : Compact 1 ns) :
    Set.BijOn (offset ms) (Set.Ico 0 (size ms)) (Set.Ico 0 (size ms)) := by
  have hpos : Positive ns := fun m hm => hms m (hperm.mem_iff.mpr hm)
  have hstride : ∀ m ∈ ms, 0 < m.stride := fun m hm =>
    hns.stride_pos one_pos hpos m (hperm.mem_iff.mp hm)
  have hsize : size ns = size ms := (hperm.map _).prod_eq.symm
  have hmaps : Set.MapsTo (offset ms) (Set.Ico 0 (size ms)) (Set.Ico 0 (size ms)) := by
    intro i _
    obtain ⟨h0, hle⟩ := sum_terms_le hms hstride i
    rw [(hperm.map _).sum_eq, hns.sum_last, hsize] at hle
    exact ⟨h0, by linarith⟩
  have hsurj : Set.SurjOn (offset ms) (Set.Ico 0 (size ms)) (Set.Ico 0 (size ms)) := by
    -- the digit of `v` at a mode depends on the mode alone, so the order does not matter
    rintro v ⟨h0, hv⟩
    have hdig : ∀ m ∈ ms, 0 ≤ v / m.stride % m.extent ∧ v / m.stride % m.extent < m.extent :=
      fun m hm => ⟨emod_nonneg _ (hms m hm).ne', emod_lt_of_pos _ (hms m hm)⟩
    refine ⟨index (fun m => v / m.stride % m.extent) ms, index_bound hdig, ?_⟩
    rw [offset_index hdig, (hperm.map _).sum_eq, hns.sum_digits one_pos hpos, ediv_one,
      one_mul, hsize, emod_eq_of_lt h0 hv]
  refine ⟨hmaps, ?_, hsurj⟩
  have hinj := Finset.injOn_of_surjOn_of_card_le
    (t := Finset.Ico 0 (size ms)) (offset ms) (by simpa using hmaps) (by simpa using hsurj) le_rfl
  simpa using hinj

end MojoProse.Schemes.MixedRadix
