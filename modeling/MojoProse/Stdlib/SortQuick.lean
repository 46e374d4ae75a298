import Mathlib.Algebra.GroupWithZero.Nat
import MojoProse.Stdlib.SortPartition

/-! Quicksort: two elements that are not in order are both in one of the intervals that are still on the stack. -/

namespace MojoProse.Stdlib.Sort

open Schemes List Ends StrictWeak

variable {α : Type} {cmpFn : α → α → Bool} {part span' : List α}

/-- Before each turn: the intervals of the stack do not meet, and all that is out of order is inside one of them. -/
structure Pending (cmpFn : α → α → Bool) (span : List α) (stack : List (ℕ × ℕ)) (span' : List α) : Prop where
  perm : span'.Perm span
  inside : ∀ p ∈ stack, 1 ≤ p.2 ∧ p.1 + p.2 ≤ span.length
  apart : stack.Pairwise fun p q => p.1 + p.2 ≤ q.1 ∨ q.1 + q.2 ≤ p.1
  settled : ∀ i j x y, i < j → span'[i]? = some x → span'[j]? = some y →
    cmpFn y x = false ∨ ∃ p ∈ stack, p.1 ≤ i ∧ j < p.1 + p.2

/-- What a turn leaves to be sorted of the interval that it took: intervals inside of it, and the rest in order. -/
structure Narrowed (cmpFn : α → α → Bool) (offset len : ℕ) (pushed : List (ℕ × ℕ)) (part : List α) : Prop where
  inside : ∀ p ∈ pushed, 1 ≤ p.2 ∧ offset ≤ p.1 ∧ p.1 + p.2 ≤ offset + len
  apart : pushed.Pairwise fun p q => p.1 + p.2 ≤ q.1 ∨ q.1 + q.2 ≤ p.1
  settled : ∀ i j x y, i < j → part[i]? = some x → part[j]? = some y →
    cmpFn y x = false ∨ ∃ p ∈ pushed, p.1 ≤ offset + i ∧ offset + j < p.1 + p.2

theorem Narrowed.of_ordered (h : Ordered cmpFn part) (offset len : ℕ) : Narrowed cmpFn offset len [] part := by
  refine ⟨by simp, .nil, ?_⟩
  intro i j x y hij hx hy
  obtain ⟨hi, rfl⟩ := List.getElem?_eq_some_iff.1 hx
  obtain ⟨hj, rfl⟩ := List.getElem?_eq_some_iff.1 hy
  exact .inl (pairwise_iff_getElem.1 h i j hi hj hij)

theorem Narrowed.whole (h : 1 ≤ part.length) (offset : ℕ) :
    Narrowed cmpFn offset part.length [(offset, part.length)] part := by
  refine ⟨?_, pairwise_singleton .., ?_⟩
  · intro p hp
    obtain rfl := mem_singleton.1 hp
    exact ⟨h, Nat.le_refl _, Nat.le_refl _⟩
  · intro i j x y hij _ hy
    have hj := (List.getElem?_eq_some_iff.1 hy).1
    exact .inr ⟨_, mem_singleton_self _, by omega, by omega⟩

theorem ordered_of_pending {span : List α} (h : Pending cmpFn span [] span') : Ordered cmpFn span' := by
  refine pairwise_iff_getElem.2 ?_
  intro i j hi hj hij
  rcases h.settled i j _ _ hij (getElem?_eq_getElem hi) (getElem?_eq_getElem hj) with hle | ⟨p, hp, -⟩
  · exact hle
  · cases hp

theorem getElem?_parts {pre after : List α} (k : ℕ) : (pre ++ part ++ after)[k]? =
      if k < pre.length then pre[k]? else if k < pre.length + part.length then part[k - pre.length]?
      else after[k - pre.length - part.length]? := by
  rw [append_assoc, getElem?_append]
  split
  · rfl
  · rw [getElem?_append]
    split
    · rw [if_pos (by omega)]
    · rw [if_neg (by omega)]

namespace Pending

variable {span pre part after : List α} {stack : List (ℕ × ℕ)}

section

variable (h : Pending cmpFn span ((pre.length, part.length) :: stack) (pre ++ part ++ after))
include h

/-- An element outside of the interval on the top and one inside of it are in order. -/
theorem settled_across {i j : ℕ} {x y : α} (hij : i < j) (hx : (pre ++ part ++ after)[i]? = some x)
    (hy : (pre ++ part ++ after)[j]? = some y)
    (hone : (i < pre.length ∧ pre.length ≤ j ∧ j < pre.length + part.length) ∨
      (pre.length ≤ i ∧ i < pre.length + part.length ∧ pre.length + part.length ≤ j)) : cmpFn y x = false := by
  rcases h.settled i j x y hij hx hy with hle | ⟨p, hp, hpi, hpj⟩
  · exact hle
  · rcases mem_cons.1 hp with rfl | hp
    · omega
    · have hapart := (pairwise_cons.1 h.apart).1 p hp
      omega

/-- A turn: the part of the interval is rearranged, and what is left of it takes its place on the stack. -/
theorem turn {part' : List α} {pushed : List (ℕ × ℕ)}
    (hperm : part'.Perm part) (hnarr : Narrowed cmpFn pre.length part.length pushed part') :
    Pending cmpFn span (pushed ++ stack) (pre ++ part' ++ after) := by
  have hlen := hperm.length_eq
  obtain ⟨hapart, hstack⟩ := pairwise_cons.1 h.apart
  have hin := (h.inside _ mem_cons_self).2
  refine ⟨((hperm.append_left pre).append_right after).trans h.perm, ?_, ?_, ?_⟩
  · intro p hp
    rcases mem_append.1 hp with hp | hp
    · obtain ⟨hone, -, hend⟩ := hnarr.inside p hp
      exact ⟨hone, by omega⟩
    · exact h.inside p (mem_cons_of_mem _ hp)
  · refine pairwise_append.2 ⟨hnarr.apart, hstack, ?_⟩
    intro p hp q hq
    obtain ⟨-, hstart, hend⟩ := hnarr.inside p hp
    have := hapart q hq
    omega
  · intro i j x y hij hx hy
    -- An element of the new part was at some place of the old one.
    have hold : ∀ k z, pre.length ≤ k → k < pre.length + part.length → (pre ++ part' ++ after)[k]? = some z →
        ∃ k', pre.length ≤ k' ∧ k' < pre.length + part.length ∧ (pre ++ part ++ after)[k']? = some z := by
      intro k z hk hk' hz
      rw [getElem?_parts, if_neg (by omega), if_pos (by omega)] at hz
      obtain ⟨m, hm⟩ := mem_iff_getElem?.1 (hperm.mem_iff.1 (mem_of_getElem? hz))
      have hmlen := (List.getElem?_eq_some_iff.1 hm).1
      refine ⟨pre.length + m, by omega, by omega, ?_⟩
      rw [getElem?_parts, if_neg (by omega), if_pos (by omega), Nat.add_sub_cancel_left]
      exact hm
    have hsame : ∀ k, k < pre.length ∨ pre.length + part.length ≤ k →
        (pre ++ part' ++ after)[k]? = (pre ++ part ++ after)[k]? := by
      intro k hk
      rw [getElem?_parts, getElem?_parts, hlen]
      rcases hk with hk | hk
      · rw [if_pos hk, if_pos hk]
      · rw [if_neg (by omega), if_neg (by omega), if_neg (by omega), if_neg (by omega)]
    by_cases hi : pre.length ≤ i ∧ i < pre.length + part.length
    · by_cases hj : j < pre.length + part.length
      · -- Both are in the interval.
        rw [getElem?_parts, if_neg (by omega), if_pos (by omega)] at hx hy
        rcases hnarr.settled (i - pre.length) (j - pre.length) x y (by omega) hx hy with hle | ⟨p, hp, h1, h2⟩
        · exact .inl hle
        · exact .inr ⟨p, mem_append_left _ hp, by omega, by omega⟩
      · obtain ⟨i', hi1, hi2, hi'⟩ := hold i x hi.1 hi.2 hx
        rw [hsame j (.inr (by omega))] at hy
        exact .inl (h.settled_across (by omega) hi' hy (.inr ⟨hi1, hi2, by omega⟩))
    · rw [hsame i (by omega)] at hx
      by_cases hj : pre.length ≤ j ∧ j < pre.length + part.length
      · obtain ⟨j', hj1, hj2, hj'⟩ := hold j y hj.1 hj.2 hy
        exact .inl (h.settled_across (by omega) hx hj' (.inl ⟨by omega, hj1, hj2⟩))
      · rw [hsame j (by omega)] at hy
        rcases h.settled i j x y hij hx hy with hle | ⟨p, hp, h1, h2⟩
        · exact .inl hle
        · rcases mem_cons.1 hp with rfl | hp
          · omega
          · exact .inr ⟨p, mem_append_right _ hp, h1, h2⟩

end

end Pending

variable {part part' : List α} {pivot : α} {offset pos : ℕ}

theorem pushRight_eq (offset len pos : ℕ) (stack : List (ℕ × ℕ)) :
    pushRight offset len pos stack = pushRight offset len pos [] ++ stack := by
  unfold pushRight
  split <;> rfl

theorem pushLeft_eq (offset pos : ℕ) (stack : List (ℕ × ℕ)) :
    pushLeft offset pos stack = pushLeft offset pos [] ++ stack := by
  unfold pushLeft
  split <;> rfl

theorem mem_pushRight {len : ℕ} {p : ℕ × ℕ} (h : p ∈ pushRight offset len pos []) :
    p = (offset + (pos + 1), len - pos - 1) ∧ pos + 2 < len := by
  unfold pushRight at h
  split at h
  · exact ⟨mem_singleton.1 h, by assumption⟩
  · cases h

theorem mem_pushLeft {p : ℕ × ℕ} (h : p ∈ pushLeft offset pos []) : p = (offset, pos) ∧ 1 < pos := by
  unfold pushLeft at h
  split at h
  · exact ⟨mem_singleton.1 h, by assumption⟩
  · cases h

theorem exists_pushRight (offset : ℕ) {pos len i j : ℕ} (hi : pos < i) (hij : i < j) (hj : j < len) :
    ∃ p ∈ pushRight offset len pos [], p.1 ≤ offset + i ∧ offset + j < p.1 + p.2 := by
  refine ⟨(offset + (pos + 1), len - pos - 1), ?_, by omega, by omega⟩
  rw [pushRight, if_pos (by omega)]
  exact mem_singleton_self _

theorem exists_pushLeft (offset : ℕ) {pos i j : ℕ} (hij : i < j) (hj : j < pos) :
    ∃ p ∈ pushLeft offset pos [], p.1 ≤ offset + i ∧ offset + j < p.1 + p.2 := by
  refine ⟨(offset, pos), ?_, by omega, by omega⟩
  rw [pushLeft, if_pos (by omega)]
  exact mem_singleton_self _

theorem Pending.exists_parts {span : List α} {len : ℕ} (h : Pending cmpFn span ((offset, len) :: stack) span') :
    ∃ pre part after, span' = pre ++ part ++ after ∧ pre.length = offset ∧ part.length = len := by
  have hin := (h.inside _ mem_cons_self).2
  have hlen := h.perm.length_eq
  refine ⟨span'.take offset, (span'.drop offset).take len, span'.drop (offset + len), ?_, by simp; omega, by simp; omega⟩
  rw [← drop_drop, append_assoc, take_append_drop, take_append_drop]

variable [IsStrictWeakOrder α fun a b => cmpFn a b = true] {stack : List (ℕ × ℕ)}

theorem Parted.narrowed_right
    (h : Parted part pivot (fun x => cmpFn x pivot = true) (fun x => cmpFn x pivot = false) pos part') :
    Narrowed cmpFn offset part.length (pushLeft offset pos [] ++ pushRight offset part.length pos []) part' := by
  have hin := h.inside
  have hlen := h.perm.length_eq
  refine ⟨?_, ?_, ?_⟩
  · intro p hp
    rcases mem_append.1 hp with hp | hp
    · obtain ⟨rfl, hpos⟩ := mem_pushLeft hp
      exact ⟨by omega, by omega, by omega⟩
    · obtain ⟨rfl, hpos⟩ := mem_pushRight hp
      exact ⟨by omega, by omega, by omega⟩
  · refine pairwise_append.2 ⟨?_, ?_, ?_⟩
    · unfold pushLeft
      split <;> simp
    · unfold pushRight
      split <;> simp
    · intro p hp q hq
      obtain ⟨rfl, -⟩ := mem_pushLeft hp
      obtain ⟨rfl, -⟩ := mem_pushRight hq
      exact .inl (by simp only; omega)
  · intro i j x y hij hx hy
    have hj := (List.getElem?_eq_some_iff.1 hy).1
    rcases Nat.lt_trichotomy i pos with hi | rfl | hi
    · have hxp := h.lower i x hi hx
      rcases Nat.lt_trichotomy j pos with hjp | rfl | hjp
      · obtain ⟨p, hp, hrest⟩ := exists_pushLeft offset hij hjp
        exact .inr ⟨p, mem_append_left _ hp, hrest⟩
      · rw [h.pivot] at hy
        cases hy
        exact .inl (asymm hxp)
      · exact .inl (trans (asymm hxp) (h.upper j y hjp hy))
    · rw [h.pivot] at hx
      cases hx
      exact .inl (h.upper j y hij hy)
    · obtain ⟨p, hp, hrest⟩ := exists_pushRight offset hi hij (hlen ▸ hj)
      exact .inr ⟨p, mem_append_right _ hp, hrest⟩

/-- In an interval with nothing smaller than the pivot, all to the left of it is equivalent to it. -/
theorem Parted.narrowed_left (h : Parted part pivot (fun x => cmpFn pivot x = false) (fun _ => True) pos part')
    (hleast : ∀ x ∈ part, cmpFn x pivot = false) :
    Narrowed cmpFn offset part.length (pushRight offset part.length pos []) part' := by
  have hlen := h.perm.length_eq
  refine ⟨?_, ?_, ?_⟩
  · intro p hp
    obtain ⟨rfl, hpos⟩ := mem_pushRight hp
    exact ⟨by omega, by omega, by omega⟩
  · unfold pushRight
    split <;> simp
  · intro i j x y hij hx hy
    have hj := (List.getElem?_eq_some_iff.1 hy).1
    have hyp : cmpFn y pivot = false := hleast y (h.perm.mem_iff.1 (mem_of_getElem? hy))
    rcases Nat.lt_trichotomy i pos with hi | rfl | hi
    · exact .inl (trans (h.lower i x hi hx) hyp)
    · rw [h.pivot] at hx
      cases hx
      exact .inl hyp
    · exact .inr (exists_pushRight offset hi hij (hlen ▸ hj))

def unsorted (stack : List (ℕ × ℕ)) : ℕ := (stack.map Prod.snd).sum

theorem unsorted_append (pushed stack : List (ℕ × ℕ)) : unsorted (pushed ++ stack) = unsorted pushed + unsorted stack := by
  simp [unsorted]

theorem unsorted_pushRight (offset len pos : ℕ) : unsorted (pushRight offset len pos []) ≤ len - pos - 1 := by
  unfold pushRight
  split <;> simp [unsorted]

theorem unsorted_pushLeft (offset pos : ℕ) : unsorted (pushLeft offset pos []) ≤ pos := by
  unfold pushLeft
  split <;> simp [unsorted]

/-- If the element before the interval is not smaller than its first, no element of it is smaller than the first. -/
theorem pivotRepeats_does {span pre after : List α}
    (h : Pending cmpFn span ((pre.length, part.length) :: stack) (pre ++ part ++ after))
    (hpivot : part[0]? = some pivot) : Does (pivotRepeats cmpFn pre.length) (pre ++ part ++ after) fun repeats span' =>
      pre ++ part ++ after = span' ∧ (repeats = true → ∀ x ∈ part, cmpFn x pivot = false) := by
  have hlen := (List.getElem?_eq_some_iff.1 hpivot).1
  rw [Does, pivotRepeats]
  split
  · obtain ⟨b, hb⟩ : ∃ b, (pre ++ part ++ after)[pre.length - 1]? = some b :=
      ⟨_, getElem?_eq_getElem (by simp; omega)⟩
    have hfst : (pre ++ part ++ after)[pre.length]? = some pivot := by
      rw [getElem?_parts, if_neg (by omega), if_pos (by omega), Nat.sub_self]
      exact hpivot
    rw [bind_of_ok (unsafeGet_ok hb), bind_of_ok (unsafeGet_ok hfst)]
    refine ⟨rfl, ?_⟩
    intro hrepeats x hx
    obtain ⟨k, hk⟩ := mem_iff_getElem?.1 hx
    have hklen := (List.getElem?_eq_some_iff.1 hk).1
    have hx' : (pre ++ part ++ after)[pre.length + k]? = some x := by
      rw [getElem?_parts, if_neg (by omega), if_pos (by omega), Nat.add_sub_cancel_left]
      exact hk
    have hle : cmpFn x b = false := h.settled_across (by omega) hb hx' (.inl ⟨by omega, by omega, by omega⟩)
    exact trans (by simpa using hrepeats) hle
  · exact ⟨rfl, by simp⟩

theorem quicksortTurn_does {span : List α} (h : Pending cmpFn span stack span') : Does (quicksortTurn cmpFn stack) span'
      (Advances (Pending cmpFn span) (fun stack _ => unsorted stack) (fun _ span'' => Pending cmpFn span [] span'')
        (unsorted stack)) := by
  rcases stack with _ | ⟨⟨offset, len⟩, stack⟩
  · exact h
  obtain ⟨pre, part, after, rfl, rfl, rfl⟩ := h.exists_parts
  have hpart : 1 ≤ part.length := (h.inside _ mem_cons_self).1
  have hless : ∀ pushed, unsorted pushed < part.length →
      unsorted (pushed ++ stack) < unsorted ((pre.length, part.length) :: stack) := by
    intro pushed hpushed
    rw [unsorted_append]
    simp only [unsorted, map_cons, sum_cons] at *
    omega
  rw [Does, quicksortTurn]
  split
  · have hsort : Does (insertionSort cmpFn) part fun _ part' => Pending cmpFn span stack (pre ++ part' ++ after) := by
      refine (insertionSort_does part).imp ?_
      rintro _ part' ⟨harr, hord⟩
      exact h.turn harr.perm (.of_ordered hord _ _)
    refine bind (withinSubspan_does hsort) ?_
    intro _ span'' h''
    exact ⟨h'', hless [] (by simp only [unsorted, map_nil, sum_nil]; omega)⟩
  · rename_i hlong
    have hlong : 32 ≤ part.length := by simpa [insertionSortThreshold] using hlong
    have hmedian : Does (withinSubspan pre.length part.length (sort3 cmpFn (part.length / 2) 0 (part.length - 1)))
        (pre ++ part ++ after) fun _ span1 => ∃ part1, span1 = pre ++ part1 ++ after ∧ part1.length = part.length ∧
          Pending cmpFn span ((pre.length, part1.length) :: stack) (pre ++ part1 ++ after) ∧
          ∃ pivot last, part1[0]? = some pivot ∧ part1[part1.length - 1]? = some last ∧ cmpFn last pivot = false := by
      refine withinSubspan_does ((sort3_does (by omega) (by omega) (by omega)).imp ?_)
      rintro _ part' ⟨hperm, pivot, last, hpivot, hlast, hle⟩
      have hlen := hperm.length_eq
      rw [← hlen] at hlast
      have hturn := h.turn hperm (hlen ▸ Narrowed.whole (by omega) pre.length)
      refine ⟨part', rfl, hlen, ?_, pivot, last, hpivot, hlast, hle⟩
      rw [hlen]
      exact hturn
    refine bind hmedian ?_
    rintro _ _ ⟨part1, rfl, hlen, h1, pivot, last, hpivot, hlast, hle⟩
    rw [← hlen] at hless hlong ⊢
    refine bind (pivotRepeats_does h1 hpivot) ?_
    rintro repeats _ ⟨rfl, hrepeats⟩
    cases repeats with
    | true =>
      have hpartition : Does (quicksortPartitionLeft cmpFn) part1 fun pos part' =>
          Pending cmpFn span (pushRight pre.length part1.length pos stack) (pre ++ part' ++ after) := by
        refine (quicksortPartitionLeft_does (by omega) hpivot).imp ?_
        intro pos part' hparted
        rw [pushRight_eq]
        exact h1.turn hparted.perm (hparted.narrowed_left (hrepeats rfl))
      refine bind (withinSubspan_does hpartition) ?_
      intro pos span'' h''
      refine ⟨h'', ?_⟩
      rw [pushRight_eq]
      have := unsorted_pushRight pre.length part1.length pos
      exact hless _ (by omega)
    | false =>
      have hpartition : Does (withinSubspan pre.length part1.length (quicksortPartitionRight cmpFn))
          (pre ++ part1 ++ after) fun pos span'' => pos < part1.length ∧
            Pending cmpFn span (pushLeft pre.length pos (pushRight pre.length part1.length pos stack)) span'' := by
        refine withinSubspan_does ((quicksortPartitionRight_does (by omega) hpivot hlast hle).imp ?_)
        intro pos part' hparted
        rw [pushLeft_eq, pushRight_eq, ← append_assoc]
        exact ⟨hparted.inside, h1.turn hparted.perm hparted.narrowed_right⟩
      refine bind hpartition ?_
      rintro pos span'' ⟨hpos, h''⟩
      refine ⟨h'', ?_⟩
      rw [pushLeft_eq, pushRight_eq, ← append_assoc]
      have hright := unsorted_pushRight pre.length part1.length pos
      have hleft := unsorted_pushLeft pre.length pos
      refine hless _ ?_
      rw [unsorted_append]
      omega

theorem quicksort_does (span : List α) :
    Does (quicksort cmpFn) span fun _ span' => span'.Perm span ∧ Ordered cmpFn span' := by
  rw [Does, quicksort, bind_get]
  split
  · rename_i hzero
    rw [eq_nil_of_length_eq_zero hzero]
    exact ⟨.refl _, .nil⟩
  · have hfst : Pending cmpFn span [(0, span.length)] span := by
      have hwhole : Narrowed cmpFn 0 span.length [(0, span.length)] span := .whole (by omega) 0
      refine ⟨.refl _, fun p hp => ?_, hwhole.apart, fun i j x y hij hx hy => ?_⟩
      · obtain ⟨hone, -, hend⟩ := hwhole.inside p hp
        exact ⟨hone, by omega⟩
      · simpa using hwhole.settled i j x y hij hx hy
    refine (loop (Pending cmpFn span) (fun stack _ => unsorted stack)
      (fun stack span' h => quicksortTurn_does h) hfst (by simp [unsorted])).imp ?_
    intro _ span' h
    exact ⟨h.perm, ordered_of_pending h⟩

end MojoProse.Stdlib.Sort
