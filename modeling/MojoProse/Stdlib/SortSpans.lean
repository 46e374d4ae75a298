import Mathlib.Data.List.Induction
import MojoProse.Stdlib.Sort

/-! The parts of `sort` that work on one span: insertion sort, the median of three, the scans and the two partitions. -/

namespace MojoProse.Stdlib.Sort

open Schemes List Ends

variable {α β : Type} {span : List α} {i : ℕ}

/-- The code comes to its end without a fault, with `Q`. -/
abbrev Does (code : SpanM α β) (span : List α) (Q : β → List α → Prop) : Prop := Ends (code span) Q fun _ _ => False

theorem unsafeGet_ok {x : α} (h : span[i]? = some x) : unsafeGet i span = .ok x span := by
  change element span i span = _
  rw [element, h]
  rfl

theorem unsafeWrite_ok (x : α) (h : i < span.length) : unsafeWrite i x span = .ok () (span.set i x) := by
  change (if i < span.length then set (span.set i x) else throw .outside : SpanM α Unit) span = _
  rw [if_pos h]
  rfl

def exchanged (span : List α) (i j : ℕ) (x y : α) : List α := (span.set i y).set j x

section

variable {span : List α} {i j : ℕ} {x y : α} (hi : span[i]? = some x) (hj : span[j]? = some y)
include hi hj

theorem unsafeSwapElements_ok : unsafeSwapElements i j span = .ok () (exchanged span i j x y) := by
  have hi' : i < span.length := (List.getElem?_eq_some_iff.1 hi).1
  have hj' : j < (span.set i y).length := by
    rw [length_set]
    exact (List.getElem?_eq_some_iff.1 hj).1
  rw [unsafeSwapElements, bind_of_ok (unsafeGet_ok hi), bind_of_ok (unsafeGet_ok hj), bind_of_ok (unsafeWrite_ok y hi')]
  exact unsafeWrite_ok x hj'

theorem exchanged_perm : (exchanged span i j x y).Perm span := by
  obtain ⟨hi', rfl⟩ := List.getElem?_eq_some_iff.1 hi
  obtain ⟨hj', rfl⟩ := List.getElem?_eq_some_iff.1 hj
  exact set_set_perm hi' hj'

theorem getElem?_exchanged
    (k : ℕ) : (exchanged span i j x y)[k]? = if k = j then some x else if k = i then some y else span[k]? := by
  simp only [exchanged, getElem?_set, length_set]
  grind

end

theorem withinSubspan_does {pre part after : List α} {code : SpanM α β} {Q : β → List α → Prop}
    (h : Does code part fun b part' => Q b (pre ++ part' ++ after)) :
    Does (withinSubspan pre.length part.length code) (pre ++ part ++ after) Q := by
  have hwithin : withinSubspan pre.length part.length code (pre ++ part ++ after) =
      zoom (fun span => (span.drop pre.length).take part.length)
        (fun span part' => span.take pre.length ++ part' ++ span.drop (pre.length + part.length)) code
        (pre ++ part ++ after) := by
    rw [withinSubspan, bind_get, if_pos (by simp)]
  rw [Does, hwithin]
  refine zoom ?_
  have hpart : ((pre ++ part ++ after).drop pre.length).take part.length = part := by simp
  have hbef : (pre ++ part ++ after).take pre.length = pre := by simp
  have hafter : (pre ++ part ++ after).drop (pre.length + part.length) = after := by
    rw [← length_append, drop_left]
  rw [hpart, hbef, hafter]
  exact h

variable {cmpFn : α → α → Bool}

/-- The elements before the hole at the start are passed one by one, as long as they are greater than the value. -/
theorem shift_does (value : α) (pre passed after : List α) (hole : α) (hpassed : ∀ x ∈ passed, cmpFn value x = true) :
    Does (shift cmpFn value pre.length) (pre ++ hole :: (passed ++ after)) fun j span' =>
      ∃ pre' passed' hole', pre' ++ passed' = pre ++ passed ∧ j = pre'.length ∧
        span' = pre' ++ hole' :: (passed' ++ after) ∧ (∀ x ∈ passed', cmpFn value x = true) ∧
        ∀ x, pre'.getLast? = some x → cmpFn value x = false := by
  induction pre using reverseRecOn generalizing passed hole with
  | nil => exact ⟨[], passed, hole, rfl, rfl, rfl, hpassed, by simp⟩
  | append_singleton pre last ih =>
    have hget : unsafeGet pre.length (pre ++ [last] ++ hole :: (passed ++ after)) =
        .ok last (pre ++ [last] ++ hole :: (passed ++ after)) := unsafeGet_ok (by simp)
    rw [length_append, length_singleton, Does, shift, bind_of_ok hget]
    split
    · rename_i hlt
      have hwrite : unsafeWrite (pre.length + 1) last (pre ++ [last] ++ hole :: (passed ++ after)) =
          .ok () (pre ++ last :: (last :: passed ++ after)) := by
        rw [unsafeWrite_ok last (by simp)]
        simp
      rw [bind_of_ok hwrite]
      refine (ih (last :: passed) last ?_).imp ?_
      · intro x hx
        rcases mem_cons.1 hx with rfl | hx
        · exact hlt
        · exact hpassed x hx
      · rintro j span' ⟨pre', passed', hole', hsame, hrest⟩
        exact ⟨pre', passed', hole', by simpa using hsame, hrest⟩
    · rename_i hlt
      refine ⟨pre ++ [last], passed, hole, rfl, by simp, rfl, hpassed, ?_⟩
      intro x hx
      obtain rfl : last = x := by simpa using hx
      simpa using hlt

variable [IsStrictWeakOrder α fun a b => cmpFn a b = true]

theorem insertTurn_does (pre : List α) (value : α) (after : List α) (hord : Ordered cmpFn pre) :
    Does (do let value ← unsafeGet pre.length; let j ← shift cmpFn value pre.length; unsafeWrite j value)
      (pre ++ value :: after) fun _ span' =>
        Arranged cmpFn (pre ++ value :: after) span' ∧ Ordered cmpFn (span'.take (pre.length + 1)) := by
  rw [Does, bind_of_ok (unsafeGet_ok (x := value) (by simp))]
  refine bind (shift_does value pre [] after value (by simp)) ?_
  rintro j span' ⟨pre', passed', hole', hsame, rfl, rfl, hpassed, hlast⟩
  rw [append_nil] at hsame
  rw [unsafeWrite_ok value (by simp)]
  have hset : (pre' ++ hole' :: (passed' ++ after)).set pre'.length value =
      pre' ++ (value :: passed') ++ after := by simp
  rw [hset]
  subst hsame
  constructor
  · have hmove := Arranged.move pre' after hpassed
    simpa using hmove
  · have htake : (pre' ++ (value :: passed') ++ after).take ((pre' ++ passed').length + 1) =
        pre' ++ value :: passed' := take_left' (by simp; omega)
    rw [htake]
    exact Ordered.insert hord hpassed hlast

theorem insertionSort_does (span : List α) :
    Does (insertionSort cmpFn) span fun _ span' => Arranged cmpFn span span' ∧ Ordered cmpFn span' := by
  rw [Does, insertionSort, bind_get]
  -- `i` elements are in order when the indices from `i` on are still to come.
  let I : List ℕ → List α → Prop := fun rest span' =>
    ∃ i, rest = range' i (span.length - i) ∧ Arranged cmpFn span span' ∧ Ordered cmpFn (span'.take i)
  refine imp (forM (I := I) ?_ _ span ⟨1, rfl, .refl span, ?_⟩) ?_
  · rintro i rest span' ⟨i', hrest, harr, hord⟩
    have hlen := harr.perm.length_eq
    obtain ⟨n, hn⟩ : ∃ n, span.length - i' = n + 1 :=
      Nat.exists_eq_succ_of_ne_zero (by rintro h; rw [h] at hrest; simp at hrest)
    rw [hn, range'_succ] at hrest
    obtain ⟨rfl, rfl⟩ := cons.inj hrest
    obtain ⟨pre, value, after, rfl, hbef⟩ : ∃ pre value after, span' = pre ++ value :: after ∧
        pre.length = i := by
      cases hdrop : span'.drop i with
      | nil =>
        have := drop_eq_nil_iff.1 hdrop
        omega
      | cons value after => exact ⟨span'.take i, value, after, by rw [← hdrop, take_append_drop], by simp; omega⟩
    subst hbef
    rw [take_left] at hord
    refine (insertTurn_does pre value after hord).imp ?_
    rintro _ span'' ⟨harr', hord'⟩
    exact ⟨pre.length + 1, by congr 1; omega, harr.trans harr', hord'⟩
  · rcases span with _ | ⟨x, span⟩ <;> simp [Ordered]
  · rintro _ span' ⟨i, hrest, harr, hord⟩
    refine ⟨harr, ?_⟩
    have hlen := harr.perm.length_eq
    have hi : 0 = span.length - i := by simpa using congrArg length hrest
    rwa [take_of_length_le (by omega)] at hord

theorem sort2_does {j : ℕ} {x y : α} (hi : span[i]? = some x) (hj : span[j]? = some y) (hij : i ≠ j) :
    Does (sort2 cmpFn i j) span fun _ span' => span'.Perm span ∧ (∀ k, k ≠ i → k ≠ j → span'[k]? = span[k]?) ∧
      ∃ p q, span'[i]? = some p ∧ span'[j]? = some q ∧ cmpFn q p = false ∧ (p = x ∧ q = y ∨ p = y ∧ q = x) := by
  rw [Does, sort2, bind_of_ok (unsafeGet_ok hi), bind_of_ok (unsafeGet_ok hj)]
  cases hxy : cmpFn x y with
  | true => exact ⟨.refl _, fun _ _ _ => rfl, x, y, hi, hj, StrictWeak.asymm hxy, .inl ⟨rfl, rfl⟩⟩
  | false =>
    change Ends (unsafeSwapElements i j span) _ _
    rw [unsafeSwapElements_ok hi hj]
    refine ⟨exchanged_perm hi hj, ?_, y, x, ?_, ?_, hxy, .inr ⟨rfl, rfl⟩⟩
    · intro k hki hkj
      rw [getElem?_exchanged hi hj, if_neg hkj, if_neg hki]
    · rw [getElem?_exchanged hi hj, if_neg hij, if_pos rfl]
    · rw [getElem?_exchanged hi hj, if_pos rfl]

/-- The first element is then not greater than the last. -/
theorem sort3_does {mid last : ℕ} (hmid : 0 < mid) (hlast : mid < last) (hlen : last < span.length) :
    Does (sort3 cmpFn mid 0 last) span fun _ span' =>
      span'.Perm span ∧ ∃ x y, span'[0]? = some x ∧ span'[last]? = some y ∧ cmpFn y x = false := by
  have hget : ∀ k, k ≤ last → ∃ x, span[k]? = some x := fun k hk => ⟨_, getElem?_eq_getElem (by omega)⟩
  obtain ⟨x, hx⟩ := hget mid (by omega)
  obtain ⟨y, hy⟩ := hget 0 (by omega)
  obtain ⟨z, hz⟩ := hget last (Nat.le_refl _)
  rw [Does, sort3]
  refine bind (sort2_does hx hy (by omega)) ?_
  rintro _ span1 ⟨hperm1, hkeep1, p1, q1, hp1, hq1, hle1, -⟩
  rw [← hkeep1 last (by omega) (by omega)] at hz
  refine bind (sort2_does hq1 hz (by omega)) ?_
  rintro _ span2 ⟨hperm2, hkeep2, q2, r2, hq2, hr2, hle2, hcase2⟩
  rw [← hkeep2 mid (by omega) (by omega)] at hp1
  refine (sort2_does hp1 hq2 (by omega)).imp ?_
  rintro _ span3 ⟨hperm3, hkeep3, p3, q3, hp3, hq3, hle3, hcase3⟩
  rw [← hkeep3 last (by omega) (by omega)] at hr2
  refine ⟨hperm3.trans (hperm2.trans hperm1), q3, r2, hq3, hr2, ?_⟩
  rcases hcase3 with ⟨rfl, rfl⟩ | ⟨rfl, rfl⟩
  · exact hle2
  -- The first element is the old middle one, which was not greater than the one it met first.
  · rcases hcase2 with ⟨rfl, rfl⟩ | ⟨rfl, rfl⟩
    · exact StrictWeak.trans hle1 hle2
    · exact hle1

section Scans

omit [IsStrictWeakOrder α fun a b => cmpFn a b = true]

variable {span : List α} {cond : α → Bool} {start : ℕ}

/-- What holds at the places from `a` on in front of `b`. -/
def Passed (P : α → Prop) (span : List α) (a b : ℕ) : Prop := ∀ k y, a ≤ k → k < b → span[k]? = some y → P y

theorem passed_nil {P : α → Prop} {a : ℕ} : Passed P span a a := fun _ _ hk hka => absurd hka (Nat.not_lt.mpr hk)

theorem Passed.next {P : α → Prop} {a : ℕ} {x : α} (h : Passed P span a i) (hi : span[i]? = some x) (hx : P x) :
    Passed P span a (i + 1) := by
  intro k y hk hki hy
  rcases Nat.lt_succ_iff_lt_or_eq.1 hki with hki | rfl
  · exact h k y hk hki hy
  · rw [hi] at hy
    cases hy
    exact hx

theorem scanUp_does {stop : ℕ} (hstop : start ≤ stop) {z : α} (hz : span[stop]? = some z)
    (hcond : cond z = false) : Does (scanUp cond start) span fun i span' => span = span' ∧ start ≤ i ∧ i ≤ stop ∧
      Passed (cond · = true) span start i ∧ ∃ x, span[i]? = some x ∧ cond x = false := by
  have hlen : stop < span.length := (List.getElem?_eq_some_iff.1 hz).1
  rw [Does, scanUp, bind_get]
  refine loop (fun i span' => span = span' ∧ start ≤ i ∧ i ≤ stop ∧ Passed (cond · = true) span start i)
    (fun i _ => stop - i) ?_ ⟨rfl, Nat.le_refl _, hstop, passed_nil⟩ (by omega)
  rintro i span' ⟨rfl, hi, hle, hpassed⟩
  obtain ⟨x, hx⟩ : ∃ x, span[i]? = some x := ⟨_, getElem?_eq_getElem (by omega)⟩
  rw [bind_of_ok (unsafeGet_ok hx)]
  split
  · rename_i hcx
    have hne : i ≠ stop := by
      rintro rfl
      rw [hz] at hx
      cases hx
      simp [hcond] at hcx
    exact ⟨⟨rfl, by omega, by omega, hpassed.next hx hcx⟩, by change stop - (i + 1) < stop - i; omega⟩
  · rename_i hcx
    exact ⟨rfl, hi, hle, hpassed, x, hx, by simpa using hcx⟩

theorem scanDownTo_does (left : ℕ) (hstart : start < span.length) :
    Does (scanDownTo left cond start) span fun i span' => span = span' ∧ i ≤ start ∧ (left ≤ start → left ≤ i) ∧
      (start ≤ left → i = start) ∧ Passed (cond · = true) span (i + 1) (start + 1) ∧
      (left < i → ∃ x, span[i]? = some x ∧ cond x = false) := by
  induction start with
  | zero => exact ⟨rfl, Nat.le_refl _, id, fun _ => rfl, passed_nil, by omega⟩
  | succ start ih =>
    rw [Does, scanDownTo]
    split
    · obtain ⟨x, hx⟩ : ∃ x, span[start + 1]? = some x := ⟨_, getElem?_eq_getElem hstart⟩
      rw [bind_of_ok (unsafeGet_ok hx)]
      split
      · rename_i hcx
        refine (ih (by omega)).imp ?_
        rintro i span' ⟨rfl, hi, hleft, -, hpassed, hstop⟩
        exact ⟨rfl, by omega, by omega, by omega, hpassed.next hx hcx, hstop⟩
      · rename_i hcx
        exact ⟨rfl, Nat.le_refl _, id, fun _ => rfl, passed_nil, fun _ => ⟨x, hx, by simpa using hcx⟩⟩
    · exact ⟨rfl, Nat.le_refl _, id, fun _ => rfl, passed_nil, by omega⟩

theorem scanUpTo_does {right : ℕ} (start : ℕ) (hright : right ≤ span.length) :
    Does (scanUpTo right cond start) span fun i span' => span = span' ∧ start ≤ i ∧ (start ≤ right → i ≤ right) ∧
      (right ≤ start → i = start) ∧ Passed (cond · = true) span start i ∧
      (i < right → ∃ x, span[i]? = some x ∧ cond x = false) := by
  rw [Does, scanUpTo]
  refine loop (fun i span' => span = span' ∧ start ≤ i ∧ (start ≤ right → i ≤ right) ∧
    (right ≤ start → i = start) ∧ Passed (cond · = true) span start i) (fun i _ => right - i) ?_
    ⟨rfl, Nat.le_refl _, id, fun _ => rfl, passed_nil⟩ (by omega)
  rintro i span' ⟨rfl, hi, hle, hsame, hpassed⟩
  split
  · obtain ⟨x, hx⟩ : ∃ x, span[i]? = some x := ⟨_, getElem?_eq_getElem (by omega)⟩
    rw [bind_of_ok (unsafeGet_ok hx)]
    split
    · rename_i hcx
      exact ⟨⟨rfl, by omega, by omega, by omega, hpassed.next hx hcx⟩,
        by change right - (i + 1) < right - i; omega⟩
    · rename_i hcx
      exact ⟨rfl, hi, hle, hsame, hpassed, fun _ => ⟨x, hx, by simpa using hcx⟩⟩
  · exact ⟨rfl, hi, hle, hsame, hpassed, by omega⟩

theorem scanDown_does {stop : ℕ} (hstop : stop ≤ start) (hstart : start < span.length) {z : α}
    (hz : span[stop]? = some z) (hcond : cond z = false) :
    Does (scanDown cond start) span fun i span' => span = span' ∧ i ≤ start ∧ stop ≤ i ∧
      Passed (cond · = true) span (i + 1) (start + 1) ∧ ∃ x, span[i]? = some x ∧ cond x = false := by
  induction start with
  | zero =>
    obtain rfl : stop = 0 := by omega
    rw [Does, scanDown, bind_of_ok (unsafeGet_ok hz), hcond]
    exact ⟨rfl, Nat.le_refl _, Nat.le_refl _, passed_nil, z, hz, hcond⟩
  | succ start ih =>
    obtain ⟨x, hx⟩ : ∃ x, span[start + 1]? = some x := ⟨_, getElem?_eq_getElem hstart⟩
    rw [Does, scanDown, bind_of_ok (unsafeGet_ok hx)]
    split
    · rename_i hcx
      have hne : stop ≠ start + 1 := by
        rintro rfl
        rw [hz] at hx
        cases hx
        simp [hcond] at hcx
      refine (ih (by omega) (by omega)).imp ?_
      rintro i span' ⟨rfl, hi, hle, hpassed, hfound⟩
      exact ⟨rfl, by omega, hle, hpassed.next hx hcx, hfound⟩
    · rename_i hcx
      exact ⟨rfl, Nat.le_refl _, hstop, passed_nil, x, hx, by simpa using hcx⟩

end Scans

end MojoProse.Stdlib.Sort
