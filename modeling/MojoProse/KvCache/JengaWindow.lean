import MojoProse.KvCache.JengaRows

/-! The rows of sliding-window leaves: null blocks below, real blocks above, and never a null block
    where the window still reads.

    `RowOk` is the invariant of one row. Each way to change a row has its lemma here; that the window
    is real follows from the invariant alone. -/

namespace MojoProse.KvCache
open KVGroup KVTree List Option Nat

variable {z z' pageSize p p' : ℕ} {row row' : List ℕ} {group : AttentionGroup}

/-- `z` null blocks, then real ones. -/
def NullsBelow (z : ℕ) (row : List ℕ) : Prop :=
  z ≤ row.length ∧ ∀ i b : ℕ, row[i]? = some b → (b = 0 ↔ i < z)

theorem nullsBelow_replicate {real : List ℕ} (h : ∀ b ∈ real, b ≠ 0) : NullsBelow z (replicate z 0 ++ real) := by
  refine ⟨by simp, fun i b hb => ?_⟩
  rcases lt_or_ge i z with hi | hi
  · rw [getElem?_append_left (by simpa using hi), getElem?_replicate, if_pos hi] at hb
    simpa [hi] using (some.inj hb).symm
  · rw [getElem?_append_right (by simpa using hi)] at hb
    simpa [not_lt.mpr hi] using h b (mem_of_getElem? hb)

section
variable (h : NullsBelow z row)
include h

theorem NullsBelow.eq_replicate : ∃ real, row = replicate z 0 ++ real ∧ ∀ b ∈ real, b ≠ 0 := by
  refine ⟨row.drop z, ?_, fun b hb => ?_⟩
  · nth_rewrite 1 [← take_append_drop z row]
    congr 1
    refine eq_replicate_iff.mpr ⟨by simpa using h.1, fun b hb => ?_⟩
    obtain ⟨i, hi⟩ := mem_iff_getElem?.mp hb
    rw [getElem?_take] at hi
    split_ifs at hi with hlt
    exact (h.2 i b hi).mpr hlt
  · obtain ⟨i, hi⟩ := mem_iff_getElem?.mp hb
    rw [getElem?_drop] at hi
    rw [ne_eq, h.2 _ b hi]
    omega

theorem NullsBelow.append {new : List ℕ} (hnew : ∀ b ∈ new, b ≠ 0) : NullsBelow z (row ++ new) := by
  obtain ⟨real, rfl, hreal⟩ := h.eq_replicate
  rw [append_assoc]
  refine nullsBelow_replicate fun b hb => ?_
  rcases mem_append.mp hb with hb | hb
  · exact hreal b hb
  · exact hnew b hb

theorem NullsBelow.sameNulls (hs : SameNulls row row') : NullsBelow z row' := by
  refine ⟨by rw [hs.1]; exact h.1, fun i b hb => ?_⟩
  have hi : i < row.length := by
    rw [← hs.1]
    exact (List.getElem?_eq_some_iff.mp hb).1
  have hb' : row[i]? = some row[i] := getElem?_eq_getElem hi
  have hnull := hs.2 i
  rw [hb, hb', some.injEq, some.injEq] at hnull
  rw [hnull]
  exact h.2 i _ hb'

theorem NullsBelow.nulled {j n : ℕ} (hn : n ≤ row.length)
    (hr : Nulled j n row row') (hj : j = 0 ∨ row[j - 1]? = some 0) (hjn : j ≤ n) : NullsBelow (max z n) row' := by
  have hlow : ∀ i, i < j → i < z := by
    intro i hi
    rcases hj with rfl | hj
    · omega
    · have := (h.2 _ 0 hj).mp rfl
      omega
  refine ⟨by rw [hr.1]; exact max_le h.1 hn, fun i b hb => ?_⟩
  rw [hr.2] at hb
  split_ifs at hb with hin
  · obtain rfl := some.inj hb
    simpa using .inr hin.2
  · rw [h.2 i b hb, lt_max_iff]
    refine ⟨.inl, fun hlt => ?_⟩
    rcases hlt with hlt | hlt
    · exact hlt
    · exact hlow i (by omega)

end

theorem KVGroup.Nulled.count_eq {j n b : ℕ} (hr : Nulled j n row row') (hj : j ≤ n) (hn : n ≤ row.length) (hb : b ≠ 0) :
    row.count b = row'.count b + ((row.take n).drop j).count b := by
  have hrow : row = row.take j ++ (row.take n).drop j ++ row.drop n := by
    conv_lhs => rw [← take_append_drop n row, ← take_append_drop j (row.take n), take_take, min_eq_left hj]
  have hrow' : row' = row.take j ++ replicate (n - j) 0 ++ row.drop n := by
    refine ext_getElem? fun i => ?_
    rw [hr.2, append_assoc, getElem?_append, getElem?_append]
    simp only [length_take, length_replicate, min_eq_left (hj.trans hn),
      getElem?_take, getElem?_replicate, getElem?_drop]
    rcases lt_or_ge i j with hi | hi
    · simp [hi, not_le.mpr hi]
    · rcases lt_or_ge i n with hin | hin
      · simp [hi, hin, not_lt.mpr hi, show i - j < n - j by omega]
      · simp [not_lt.mpr hi, not_lt.mpr hin, show ¬ i - j < n - j by omega, show n + (i - j - (n - j)) = i by omega]
  have hzero : (replicate (n - j) 0).count b = 0 := count_eq_zero.mpr fun h => hb (eq_of_mem_replicate h)
  have hcnt := congrArg (count b) hrow
  have hcnt' := congrArg (count b) hrow'
  simp only [count_append] at hcnt hcnt'
  omega

/-- A row of a request with `p` tokens processed: null blocks only below the window. -/
def RowOk (pageSize p : ℕ) (group : AttentionGroup) (row : List ℕ) : Prop :=
  ∃ z, NullsBelow z row ∧
    (z = 0 ∨ ∃ w, group.window pageSize = some w ∧ (z + w) * pageSize ≤ p)

theorem RowOk.nil : RowOk pageSize p group [] := ⟨0, ⟨le_rfl, by simp⟩, .inl rfl⟩

theorem RowOk.mono (h : RowOk pageSize p group row) (hp : p ≤ p') : RowOk pageSize p' group row := by
  obtain ⟨z, hz, hw⟩ := h
  refine ⟨z, hz, hw.imp_right ?_⟩
  rintro ⟨w, hw, hle⟩
  exact ⟨w, hw, hle.trans hp⟩

theorem RowOk.append {new : List ℕ} (h : RowOk pageSize p group row) (hnew : ∀ b ∈ new, b ≠ 0) :
    RowOk pageSize p group (row ++ new) := by
  obtain ⟨z, hz, hw⟩ := h
  exact ⟨z, hz.append hnew, hw⟩

theorem RowOk.sameNulls (h : RowOk pageSize p group row) (hs : SameNulls row row') : RowOk pageSize p group row' := by
  obtain ⟨z, hz, hw⟩ := h
  exact ⟨z, hz.sameNulls hs, hw⟩

/-- A hit of `n` blocks on the device and `m` of the connector, as `extend` puts them together. -/
theorem RowOk.spliced {n m : ℕ} {hit loaded : List ℕ} (hhit : HitRow pageSize group n hit)
    (hloaded : HitRow pageSize group m loaded) :
    RowOk pageSize ((n + m) * pageSize) group (keptOfHit pageSize group hit loaded ++ loaded) := by
  obtain ⟨hlen, real, hrow, hreal⟩ := hhit
  obtain ⟨-, real', hrow', hreal'⟩ := hloaded
  have hz : NullsBelow (windowLow pageSize group n) hit := hrow ▸ nullsBelow_replicate hreal
  rcases Nat.eq_zero_or_pos (windowLow pageSize group m) with hm | hm
  · -- the loaded run is real, the device blocks stay in front of it
    rw [hm, replicate_zero, nil_append] at hrow'
    subst hrow'
    have hkept : keptOfHit pageSize group hit loaded = hit := by
      refine if_neg fun h => ?_
      exact hreal' 0 (mem_of_mem_head? (by simp [h.2])) rfl
    rw [hkept]
    refine ⟨_, hz.append hreal', ?_⟩
    rw [windowLow]
    cases hw : group.window pageSize with
    | none => exact .inl rfl
    | some w =>
      rcases Nat.eq_zero_or_pos (n - w) with h0 | h0
      · exact .inl h0
      · exact .inr ⟨w, rfl, mul_le_mul_right _ (by simp only; omega)⟩
  · -- the loaded run fills the window, the device blocks below it are dropped
    rw [windowLow] at hm hrow'
    cases hw : group.window pageSize with
    | none => simp [hw] at hm
    | some w =>
      simp only [hw] at hm hrow'
      obtain ⟨k, hk⟩ := exists_eq_succ_of_ne_zero hm.ne'
      have hhead : loaded.head? = some 0 := by simp [hrow', hk, replicate_succ]
      rw [keptOfHit, if_pos ⟨by simp [hw], hhead⟩, hlen, hrow', ← append_assoc, replicate_append_replicate]
      exact ⟨_, nullsBelow_replicate hreal', .inr ⟨w, hw, mul_le_mul_right _ (by omega)⟩⟩

theorem RowOk.advanced (h : RowOk pageSize p group row)
    (ha : Advanced pageSize group (p / pageSize) row row') : RowOk pageSize p group row' := by
  obtain ⟨z, hz, hzw⟩ := h
  rw [Advanced] at ha
  cases hw : group.window pageSize with
  | none =>
    simp only [hw] at ha hzw
    exact ⟨z, ha ▸ hz, .inl (by simpa using hzw)⟩
  | some w =>
    simp only [hw, some.injEq, exists_eq_left'] at ha hzw
    obtain ⟨j, hj, hn, hr, hnull⟩ := ha
    refine ⟨_, hz.nulled hn hr hnull hj, ?_⟩
    rcases le_total (p / pageSize - w) z with hle | hle
    · rw [max_eq_left hle]
      exact hzw.imp_right fun h => ⟨w, hw, h⟩
    · rw [max_eq_right hle]
      rcases Nat.eq_zero_or_pos (p / pageSize - w) with h0 | h0
      · exact .inl h0
      · refine .inr ⟨w, hw, ?_⟩
        rw [Nat.sub_add_cancel (by omega)]
        exact Nat.div_mul_le_self p pageSize

/-- The window is real: every slot that covers one of the last `w - 1` tokens holds a block. -/
theorem RowOk.window_real {w q : ℕ} {hw : 1 < w} (hp : 0 < pageSize)
    (h : RowOk pageSize p (.slidingWindow w hw) row) (hcap : p ≤ pageSize * row.length)
    (hlow : p ≤ q + (w - 1)) (hq : q < p) : ∃ b, row[q / pageSize]? = some b ∧ b ≠ 0 := by
  obtain ⟨z, hz, hzw⟩ := h
  have hlt : q / pageSize < row.length := (div_lt_iff_lt_mul hp).mpr (by rw [mul_comm]; omega)
  refine ⟨row[q / pageSize], getElem?_eq_getElem hlt, fun h0 => ?_⟩
  have hbelow := (hz.2 _ _ (getElem?_eq_getElem hlt)).mp h0
  have hqz : q < z * pageSize := (div_lt_iff_lt_mul hp).mp hbelow
  rcases hzw with rfl | ⟨w', hw', hle⟩
  · omega
  · -- the window in whole blocks covers the tokens
    simp only [AttentionGroup.window, some.injEq] at hw'
    have hcover := le_blocksInWindow_mul (w := w) hp
    rw [hw'] at hcover
    rw [add_mul] at hle
    omega

end MojoProse.KvCache
