import MojoProse.Stdlib.SortSpans

/-! The two partitions of quicksort. Their scans have no bound on one side: they stop at the elements that the other
    side has already put there, and before any exchange at the last or the first element of the span. -/

namespace MojoProse.Stdlib.Sort

open Schemes Ends

variable {α : Type}

/-- Between two turns of a partition of `span`: `P` holds of what is below `left`, and `Q` of what is above `right`. -/
structure Parting (span : List α) (pivot : α) (P Q : α → Prop) (left right : ℕ) (span' : List α) : Prop where
  perm : span'.Perm span
  pivot : span'[0]? = some pivot
  low : 1 ≤ left
  near : left ≤ right + 1
  high : right < span.length
  lower : ∀ k x, 1 ≤ k → k < left → span'[k]? = some x → P x
  upper : ∀ k x, right < k → span'[k]? = some x → Q x

/-- The end of a partition: the pivot is at its place. -/
structure Parted (span : List α) (pivot : α) (P Q : α → Prop) (pos : ℕ) (span' : List α) : Prop where
  perm : span'.Perm span
  inside : pos < span.length
  pivot : span'[pos]? = some pivot
  lower : ∀ k x, k < pos → span'[k]? = some x → P x
  upper : ∀ k x, pos < k → span'[k]? = some x → Q x

namespace Parting

variable {span span' : List α} {pivot : α} {P Q : α → Prop} {left right : ℕ}

section

variable (h : Parting span pivot P Q left right span')
include h

theorem length : span'.length = span.length := h.perm.length_eq

theorem exists_get {k : ℕ} (hk : k < span.length) :
    ∃ x, span'[k]? = some x := ⟨_, List.getElem?_eq_getElem (by rw [h.length]; exact hk)⟩

theorem widen {left' right' : ℕ} (hleft : left ≤ left') (hright : right' ≤ right) (hnear : left' ≤ right' + 1)
    (hlower : Passed P span' left left') (hupper : Passed Q span' (right' + 1) (right + 1)) :
    Parting span pivot P Q left' right' span' := by
  refine ⟨h.perm, h.pivot, Nat.le_trans h.low hleft, hnear, Nat.lt_of_le_of_lt hright h.high, ?_, ?_⟩
  · intro k x hk hkl hx
    rcases Nat.lt_or_ge k left with hlt | hge
    · exact h.lower k x hk hlt hx
    · exact hlower k x hge hkl hx
  · intro k x hk hx
    rcases Nat.lt_or_ge right k with hlt | hge
    · exact h.upper k x hlt hx
    · exact hupper k x hk (Nat.lt_succ_of_le hge) hx

/-- An exchange of two elements that are on the wrong sides. -/
theorem exchange (hlt : left < right) {x y : α}
    (hx : span'[left]? = some x) (hy : span'[right]? = some y) (hxQ : Q x) (hyP : P y) :
    Parting span pivot P Q (left + 1) (right - 1) (exchanged span' left right x y) := by
  have hlow := h.low
  have hhigh := h.high
  refine ⟨(exchanged_perm hx hy).trans h.perm, ?_, by omega, by omega, by omega, ?_, ?_⟩
  · rw [getElem?_exchanged hx hy, if_neg (by omega), if_neg (by omega)]
    exact h.pivot
  · intro k z hk hkl hz
    rw [getElem?_exchanged hx hy, if_neg (by omega)] at hz
    split at hz
    · cases hz
      exact hyP
    · exact h.lower k z hk (by omega) hz
  · intro k z hk hz
    rw [getElem?_exchanged hx hy] at hz
    split at hz
    · cases hz
      exact hxQ
    · rw [if_neg (by omega)] at hz
      exact h.upper k z (by omega) hz

theorem finish {x : α} (hx : span'[left - 1]? = some x) (hupper : ∀ k y, left ≤ k → span'[k]? = some y → Q y) :
    Parted span pivot P Q (left - 1) (exchanged span' (left - 1) 0 x pivot) := by
  have hnear := h.near
  have hhigh := h.high
  refine ⟨(exchanged_perm hx h.pivot).trans h.perm, by omega, ?_, ?_, ?_⟩
  · rw [getElem?_exchanged hx h.pivot]
    rcases Nat.eq_zero_or_pos (left - 1) with hzero | hpos
    · rw [hzero] at hx ⊢
      exact hx.symm.trans h.pivot
    · rw [if_neg (by omega), if_pos rfl]
  · intro k y hk hy
    rw [getElem?_exchanged hx h.pivot] at hy
    split at hy
    · cases hy
      exact h.lower (left - 1) x (by omega) (by omega) hx
    · rw [if_neg (by omega)] at hy
      exact h.lower k y (by omega) (by omega) hy
  · intro k y hk hy
    rw [getElem?_exchanged hx h.pivot, if_neg (by omega), if_neg (by omega)] at hy
    exact hupper k y (by omega) hy

theorem meet_does (hmet : right ≤ left → ∀ k y, left ≤ k → span'[k]? = some y → Q y)
    (hwrong : left < right → ∀ x y, span'[left]? = some x → span'[right]? = some y → Q x ∧ P y) :
    Does (meet left right) span' fun turn span'' =>
      match turn with
      | .again (left', right') =>
        Parting span pivot P Q left' right' span'' ∧ left' = left + 1 ∧ right' = right - 1 ∧ left < right ∧
          ∃ x, span''[right]? = some x ∧ Q x
      | .done pos => Parted span pivot P Q pos span'' := by
  have hnear := h.near
  have hhigh := h.high
  rw [Does, meet]
  split
  · rename_i hge
    obtain ⟨x, hx⟩ := h.exists_get (k := left - 1) (by omega)
    rw [bind_of_ok (unsafeSwapElements_ok hx h.pivot)]
    exact h.finish hx (hmet hge)
  · obtain ⟨x, hx⟩ := h.exists_get (k := left) (by omega)
    obtain ⟨y, hy⟩ := h.exists_get (by omega)
    obtain ⟨hxQ, hyP⟩ := hwrong (by omega) x y hx hy
    rw [bind_of_ok (unsafeSwapElements_ok hx hy)]
    refine ⟨h.exchange (by omega) hx hy hxQ hyP, rfl, rfl, by omega, x, ?_, hxQ⟩
    rw [getElem?_exchanged hx hy, if_pos rfl]

end

end Parting

variable {cmpFn : α → α → Bool}

/-- The first element is the pivot; the last is not smaller, so that the first scan stops. -/
theorem quicksortPartitionRight_does {span : List α} {pivot last : α} (hlen : 2 ≤ span.length)
    (hpivot : span[0]? = some pivot) (hlast : span[span.length - 1]? = some last) (hle : cmpFn last pivot = false) :
    Does (quicksortPartitionRight cmpFn) span
      (Parted span pivot (fun x => cmpFn x pivot = true) fun x => cmpFn x pivot = false) := by
  rw [Does, quicksortPartitionRight, bind_get]
  -- There is always an element ahead at which the scan upwards stops.
  refine loop (fun vars span' =>
    Parting span pivot (fun x => cmpFn x pivot = true) (fun x => cmpFn x pivot = false) vars.1 vars.2 span' ∧
      ∃ stop z, vars.1 ≤ stop ∧ stop ≤ vars.2 + 1 ∧ span'[stop]? = some z ∧ cmpFn z pivot = false)
    (fun vars _ => vars.2 + 1 - vars.1) ?_ ⟨⟨.refl _, hpivot, Nat.le_refl _, by omega, by omega, by omega, ?_⟩,
      span.length - 1, last, by omega, by omega, hlast, hle⟩ (by omega)
  · rintro ⟨left, right⟩ span' ⟨h, stop, z, hstop, hstop', hz, hzc⟩
    rw [partitionRightTurn, bind_of_ok (unsafeGet_ok h.pivot)]
    refine bind (scanUp_does hstop hz hzc) ?_
    rintro left' _ ⟨rfl, hleft, hleft', hup, x, hx, hxc⟩
    refine bind (scanDownTo_does left' (by rw [h.length]; exact h.high)) ?_
    rintro right' _ ⟨rfl, hright, hbd, hsame, hdown, hfound⟩
    have hnear : left' ≤ right' + 1 := by omega
    have hwide := h.widen hleft hright hnear hup (by simpa using hdown)
    refine (hwide.meet_does ?_ ?_).imp ?_
    · intro hge k y hk hy
      rcases Nat.lt_or_ge right' k with hlt | hle
      · exact hwide.upper k y hlt hy
      · obtain rfl : k = left' := by omega
        rw [hx] at hy
        cases hy
        exact hxc
    · intro hlt x' y hx' hy
      obtain ⟨y', hy', hyc⟩ := hfound hlt
      rw [hx] at hx'
      rw [hy'] at hy
      cases hx'
      cases hy
      exact ⟨hxc, by simpa using hyc⟩
    · rintro (⟨left'', right''⟩ | pos) span'' hturn
      · obtain ⟨hparting, rfl, rfl, hlt, z', hz', hzc'⟩ := hturn
        exact ⟨⟨hparting, right', z', by omega, by omega, hz', hzc'⟩, by simp only; omega⟩
      · exact hturn
  · intro k x hk hx
    have := (List.getElem?_eq_some_iff.1 hx).1
    omega

/-- The first element is the pivot; no element is smaller. The scan downwards stops at the pivot at the latest. -/
theorem quicksortPartitionLeft_does [IsStrictWeakOrder α fun a b => cmpFn a b = true] {span : List α} {pivot : α}
    (hlen : 2 ≤ span.length) (hpivot : span[0]? = some pivot) :
    Does (quicksortPartitionLeft cmpFn) span (Parted span pivot (fun x => cmpFn pivot x = false) fun _ => True) := by
  rw [Does, quicksortPartitionLeft, bind_get]
  refine loop (fun vars span' =>
    Parting span pivot (fun x => cmpFn pivot x = false) (fun _ => True) vars.1 vars.2 span')
    (fun vars _ => vars.2 + 1 - vars.1) ?_
    ⟨.refl _, hpivot, Nat.le_refl _, by omega, by omega, by omega, fun _ _ _ _ => trivial⟩ (by omega)
  rintro ⟨left, right⟩ span' h
  have hnear := h.near
  have hhigh := h.high
  rw [partitionLeftTurn, bind_of_ok (unsafeGet_ok h.pivot)]
  refine bind (scanUpTo_does left (by rw [h.length]; omega)) ?_
  rintro left' _ ⟨rfl, hleft, hbd, hsame, hup, -⟩
  have hwide : Parting span pivot (fun x => cmpFn pivot x = false) (fun _ => True) left' right span' :=
    h.widen hleft (Nat.le_refl _) (by omega) (by simpa using hup) fun _ _ _ _ _ => trivial
  -- The element before `left'` is the pivot, or one that is not greater.
  obtain ⟨z, hz, hzc⟩ : ∃ z, span'[left' - 1]? = some z ∧ cmpFn pivot z = false := by
    rcases Nat.eq_zero_or_pos (left' - 1) with hzero | hpos
    · exact ⟨pivot, by rw [hzero]; exact h.pivot, StrictWeak.self pivot⟩
    · obtain ⟨z, hz⟩ := h.exists_get (k := left' - 1) (by omega)
      exact ⟨z, hz, hwide.lower _ z hpos (by omega) hz⟩
  refine bind (scanDown_does (by omega) (by rw [h.length]; exact h.high) hz hzc) ?_
  rintro right' _ ⟨rfl, hright, hstop, -, y, hy, hyc⟩
  have hwide' := hwide.widen (Nat.le_refl _) hright (by omega) passed_nil fun _ _ _ _ _ => trivial
  refine (hwide'.meet_does (fun _ _ _ _ _ => trivial) ?_).imp ?_
  · intro _ _ y' _ hy'
    rw [hy] at hy'
    cases hy'
    exact ⟨trivial, hyc⟩
  · rintro (⟨left'', right''⟩ | pos) span'' hturn
    · obtain ⟨hparting, rfl, rfl, hlt, -⟩ := hturn
      exact ⟨hparting, by simp only; omega⟩
    · exact hturn

end MojoProse.Stdlib.Sort
