import MojoProse.Stdlib.SortSpans

/-! `_heap_sort` (`sort.mojo`). The sift-down always reads the whole span, also when the end of it is sorted already, so
    that what was put at the end comes back to the front. -/

namespace MojoProse.Stdlib.Sort

open Schemes List Ends

variable {α : Type}

section
variable (cmpFn : α → α → Bool)

/-- The child of an index that is compared with it: the right one if there is one and it is greater. -/
def greaterChild (i : ℕ) : SpanM α ℕ := do
  if i * 2 + 2 < (← get).length then
    let x ← unsafeGet (i * 2 + 1)
    let y ← unsafeGet (i * 2 + 2)
    pure (if cmpFn x y then i * 2 + 2 else i * 2 + 1)
  else pure (i * 2 + 1)

/-- A turn of the loop of `_heap_sort_fix_down`. -/
def fixDownTurn (i : ℕ) : SpanM α (Turn ℕ Unit) := do
  if i * 2 + 1 < (← get).length then
    let j ← greaterChild cmpFn i
    let x ← unsafeGet i
    let y ← unsafeGet j
    if cmpFn x y then
      unsafeSwapElements j i
      pure (.again j)
    else pure (.done ())
  else pure (.done ())

def heapSortFixDown (idx : ℕ) : SpanM α Unit := do
  loop .unfinished (fixDownTurn cmpFn) ((← get).length + 1) idx

def heapSort : SpanM α Unit := do
  let size := (← get).length
  (range (size / 2)).reverse.forM (heapSortFixDown cmpFn)
  (range' 1 (size - 1)).reverse.forM fun size => do
    unsafeSwapElements 0 size
    heapSortFixDown cmpFn 0

end

variable {cmpFn : α → α → Bool} {i : ℕ} {span : List α}

theorem greaterChild_does (hleft : i * 2 + 1 < span.length) :
    Does (greaterChild cmpFn i) span fun j span' => span = span' ∧ i < j ∧ j < span.length := by
  rw [Does, greaterChild, bind_get]
  split_ifs with hright
  · rw [bind_of_ok (unsafeGet_ok (getElem?_eq_getElem hleft)), bind_of_ok (unsafeGet_ok (getElem?_eq_getElem hright))]
    split_ifs
    · exact ⟨rfl, by omega, hright⟩
    · exact ⟨rfl, by omega, hleft⟩
  · exact ⟨rfl, by omega, hleft⟩

theorem heapSortFixDown_does (idx : ℕ) : Does (heapSortFixDown cmpFn idx) span fun _ span' => span'.Perm span := by
  rw [Does, heapSortFixDown, bind_get]
  refine loop (fun _ span' => span'.Perm span) (fun i _ => span.length - i) ?_ (.refl _) (by omega)
  intro i span' hperm
  rw [fixDownTurn, bind_get]
  split_ifs with hleft
  · refine bind (greaterChild_does hleft) ?_
    rintro j _ ⟨rfl, hij, hj⟩
    have hx := getElem?_eq_getElem (Nat.lt_trans hij hj)
    have hy := getElem?_eq_getElem hj
    rw [bind_of_ok (unsafeGet_ok hx), bind_of_ok (unsafeGet_ok hy)]
    split_ifs
    · rw [bind_of_ok (unsafeSwapElements_ok hy hx)]
      have hlen := hperm.length_eq
      exact ⟨(exchanged_perm hy hx).trans hperm, by change span.length - j < span.length - i; omega⟩
    · exact hperm
  · exact hperm

theorem heapSort_does (span : List α) : Does (heapSort cmpFn) span fun _ span' => span'.Perm span := by
  rw [Does, heapSort, bind_get]
  refine bind (forM (I := fun _ span' => span'.Perm span) (fun k _ span' hperm => ?_) _ span (.refl _)) fun _ s hs => ?_
  · exact (heapSortFixDown_does k).imp fun _ _ h => h.trans hperm
  refine imp (forM (I := fun rest span' => (∀ k ∈ rest, k < span.length) ∧ span'.Perm span) ?_ _ s
    ⟨fun k hk => ?_, hs⟩) fun _ _ h => h.2
  · rintro k rest span' ⟨hrest, hperm⟩
    have hk := hperm.length_eq ▸ hrest k mem_cons_self
    have hx := getElem?_eq_getElem (Nat.zero_lt_of_lt hk)
    have hy := getElem?_eq_getElem hk
    rw [bind_of_ok (unsafeSwapElements_ok hx hy)]
    refine (heapSortFixDown_does 0).imp fun _ _ h => ?_
    exact ⟨(forall_mem_cons.mp hrest).2, (h.trans (exchanged_perm hx hy)).trans hperm⟩
  · rw [mem_reverse, mem_range'_1] at hk
    omega

theorem heapSortFixDown_pair {a b : α} (hab : cmpFn a b = true) : heapSortFixDown cmpFn 0 [a, b] = .ok () [b, a] := by
  have hturn : fixDownTurn cmpFn 0 [a, b] = .ok (.again 1) [b, a] := by
    have hchild : greaterChild cmpFn 0 [a, b] = .ok 1 [a, b] := rfl
    rw [fixDownTurn, bind_get, if_pos (by simp), bind_of_ok hchild, bind_of_ok (unsafeGet_ok rfl),
      bind_of_ok (unsafeGet_ok rfl), if_pos hab, bind_of_ok (unsafeSwapElements_ok rfl rfl)]
    rfl
  rw [heapSortFixDown, bind_get, Schemes.loop, bind_of_ok hturn]
  rfl

end MojoProse.Stdlib.Sort
