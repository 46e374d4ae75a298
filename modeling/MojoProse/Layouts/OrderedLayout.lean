import MojoProse.Layouts.ToNest
import MojoProse.Schemes.CompactStrides

/-!
# Layouts with ordered strides

`make_ordered_layout(shape, order)` flattens both tuples, sorts the leaves by their order, gives
each the product of the extents before it as stride, undoes the sorting and nests the strides back.
The flat strides are always right (`flatCompactOrder_spec`); the layout is right exactly where
`to_nest` rebuilds the shape, and a bare integer comes back as a tuple (`makeOrderedLayout_iff`).
-/

namespace MojoProse.Layouts

open Layout List Prod IntTuple

open Schemes.MixedRadix (Mode Positive offset Compact)
open Schemes

/-- The inner loop of `_sorted_perm`, from the end of the sorted entries: larger ones move up by one. -/
def shiftIn (key : ℤ × ℕ) : List (ℤ × ℕ) → List (ℤ × ℕ)
  | [] => [key]
  | p :: ps => if p.1 > key.1 then p :: shiftIn key ps else key :: p :: ps

/-- `_sorted_perm`: insertion sort of the values along with their indices. -/
def sortedPerm (order : List ℤ) : List ℕ :=
  ((order.zipIdx.foldl (fun sorted key => shiftIn key sorted) []).reverse).map snd

def flatApplyPerm (flat : List ℤ) (perm : List ℕ) : Except Fault (List ℤ) :=
  perm.mapM (getItem flat)

/-- `prefix_product` of a flat tuple, with the running product. -/
def prefixProducts (init : ℤ) : List ℤ → List ℤ
  | [] => []
  | v :: vs =>
    init :: prefixProducts
      (if v = unknownValue ∨ init = unknownValue then unknownValue else init * v) vs

/-- `_flat_apply_invperm`: entry `perm[i]` receives value `i`. -/
def flatApplyInvperm (flat : List ℤ) (perm : List ℕ) : List ℤ :=
  (perm.zip flat).foldl (fun result p => result.set p.1 p.2) (replicate flat.length 0)

def flatCompactOrder (shape order : List ℤ) : Except Fault (List ℤ) := do
  let perm := sortedPerm order
  let sortedShape ← flatApplyPerm shape perm
  return flatApplyInvperm (prefixProducts 1 sortedShape) perm

/-- `compact_order(shape, order)`. -/
def compactOrder (shape order : IntTuple) : Except Fault IntTuple := do
  let flatResult ← flatCompactOrder shape.leaves order.leaves
  toNest shape flatResult

/-- `make_ordered_layout(shape, order)`: the shape and the stride of the layout. -/
def makeOrderedLayout (shape order : IntTuple) : Except Fault (IntTuple × IntTuple) := do
  let stride ← compactOrder shape order
  return (shape, stride)

theorem shiftIn_eq_orderedInsert (key : ℤ × ℕ) (ps : List (ℤ × ℕ)) :
    shiftIn key ps = ps.orderedInsert (fun p q => q.1 ≤ p.1) key := by
  induction ps with
  | nil => rfl
  | cons p ps ih =>
    rw [shiftIn, orderedInsert, ih]
    rcases lt_or_ge key.1 p.1 with h | h
    · rw [if_pos h, if_neg (not_le.mpr h)]
    · rw [if_neg (not_lt.mpr h), if_pos h]

theorem foldl_shiftIn_perm (ps sorted : List (ℤ × ℕ)) :
    (ps.foldl (fun sorted key => shiftIn key sorted) sorted).Perm (ps ++ sorted) := by
  induction ps generalizing sorted with
  | nil => exact .refl _
  | cons p ps ih =>
    rw [foldl_cons]
    refine (ih _).trans ?_
    rw [shiftIn_eq_orderedInsert, cons_append]
    exact ((perm_orderedInsert _ p sorted).append_left ps).trans perm_middle

theorem foldl_shiftIn_pairwise (ps : List (ℤ × ℕ)) {sorted : List (ℤ × ℕ)} (h : sorted.Pairwise fun p q => q.1 ≤ p.1) :
    (ps.foldl (fun sorted key => shiftIn key sorted) sorted).Pairwise fun p q => q.1 ≤ p.1 := by
  induction ps generalizing sorted with
  | nil => exact h
  | cons p ps ih =>
    rw [foldl_cons]
    refine ih ?_
    rw [shiftIn_eq_orderedInsert]
    exact Pairwise.orderedInsert p sorted h

/-- The permutation lists every index once, by non-decreasing order. -/
theorem sortedPerm_spec (order : List ℤ) : (sortedPerm order).Perm (range order.length) ∧
      (sortedPerm order).Pairwise fun i j => order.getD i 0 ≤ order.getD j 0 := by
  let ps := (order.zipIdx.foldl (fun sorted key => shiftIn key sorted) []).reverse
  have hperm : ps.Perm order.zipIdx := by
    have hfold := foldl_shiftIn_perm order.zipIdx []
    rw [append_nil] at hfold
    exact (reverse_perm _).trans hfold
  have hsort : ps.Pairwise fun p q => p.1 ≤ q.1 := pairwise_reverse.mpr (foldl_shiftIn_pairwise _ .nil)
  have hval : ∀ p ∈ ps, order.getD p.2 0 = p.1 := by
    intro p hp
    obtain ⟨-, hlt, heq⟩ := mem_zipIdx (hperm.mem_iff.mp hp)
    rw [getD_eq_getElem _ _ (by simpa using hlt)]
    simpa using heq.symm
  refine ⟨?_, ?_⟩
  · have hsnd := hperm.map snd
    rw [zipIdx_map_snd] at hsnd
    rw [range_eq_range']
    exact hsnd
  · rw [sortedPerm, pairwise_map]
    refine hsort.imp_of_mem fun {p q} hp hq hle => ?_
    rwa [hval p hp, hval q hq]

theorem flatApplyPerm_eq {flat : List ℤ} {perm : List ℕ} (h : ∀ i ∈ perm, i < flat.length) :
    flatApplyPerm flat perm = .ok (perm.map fun i => flat.getD i 0) := by
  rw [flatApplyPerm]
  induction perm with
  | nil => rfl
  | cons i perm ih =>
    obtain ⟨hi, hrest⟩ := forall_mem_cons.mp h
    rw [mapM_cons, getItem_of_lt hi, ih hrest, map_cons, getD_eq_getElem _ _ hi]
    rfl

@[simp] theorem length_prefixProducts (init : ℤ) (vs : List ℤ) : (prefixProducts init vs).length = vs.length := by
  induction vs generalizing init with
  | nil => rfl
  | cons v vs ih => simp [prefixProducts, ih]

theorem compact_prefixProducts {init : ℤ} (hinit : 0 < init) {vs : List ℤ} (h : ∀ v ∈ vs, 0 < v) :
    Compact init (zipWith Mode.mk vs (prefixProducts init vs)) := by
  induction vs generalizing init with
  | nil => trivial
  | cons v vs ih =>
    obtain ⟨hv, hvs⟩ := forall_mem_cons.mp h
    rw [prefixProducts, if_neg (by simp [ne_unknown hv.le, ne_unknown hinit.le])]
    exact ⟨rfl, ih (mul_pos hinit hv) hvs⟩

theorem length_foldl_set (ps : List (ℕ × ℤ)) (res : List ℤ) :
    (ps.foldl (fun res p => res.set p.1 p.2) res).length = res.length := by
  induction ps generalizing res with
  | nil => rfl
  | cons p ps ih => rw [foldl_cons, ih, length_set]

variable {ps : List (ℕ × ℤ)}

theorem getD_foldl_set_of_notMem {i : ℕ} (h : i ∉ ps.map fst) (res : List ℤ) :
    (ps.foldl (fun res p => res.set p.1 p.2) res).getD i 0 = res.getD i 0 := by
  induction ps generalizing res with
  | nil => rfl
  | cons p ps ih =>
    rw [map_cons, mem_cons, not_or] at h
    rw [foldl_cons, ih h.2, getD_eq_getElem?_getD, getD_eq_getElem?_getD, getElem?_set_ne fun heq => h.1 heq.symm]

theorem map_getD_foldl_set (hnd : (ps.map fst).Nodup)
    {res : List ℤ} (hlt : ∀ i ∈ ps.map fst, i < res.length) : (ps.map fst).map
        (fun i => (ps.foldl (fun res p => res.set p.1 p.2) res).getD i 0) = ps.map snd := by
  induction ps generalizing res with
  | nil => rfl
  | cons p ps ih =>
    obtain ⟨hp, hps⟩ := forall_mem_cons.mp hlt
    obtain ⟨hnot, hnd⟩ := nodup_cons.mp hnd
    have hset : p.1 < (res.set p.1 p.2).length := by rwa [length_set]
    simp only [map_cons, foldl_cons]
    rw [ih hnd (by simpa using hps), getD_foldl_set_of_notMem hnot, getD_eq_getElem _ _ hset, getElem_set_self]

theorem flatCompactOrder_spec {shape order : List ℤ} (hlen : shape.length = order.length) (hpos : ∀ v ∈ shape, 0 < v) :
    ∃ st, flatCompactOrder shape order = .ok st ∧ st.length = shape.length ∧
      Compact 1 ((sortedPerm order).map fun i => ⟨shape.getD i 0, st.getD i 0⟩) := by
  obtain ⟨hperm, -⟩ := sortedPerm_spec order
  have hlt : ∀ i ∈ sortedPerm order, i < shape.length := fun i hi => by
    rw [hlen]
    exact mem_range.mp (hperm.mem_iff.mp hi)
  have hcnt : (sortedPerm order).length = shape.length := by
    rw [hperm.length_eq, length_range, hlen]
  let sortedShape := (sortedPerm order).map fun i => shape.getD i 0
  let products := prefixProducts 1 sortedShape
  have hprods : products.length = (sortedPerm order).length := by simp [products, sortedShape]
  have hfst : ((sortedPerm order).zip products).map fst = sortedPerm order := map_fst_zip hprods.ge
  have hsnd : ((sortedPerm order).zip products).map snd = products := map_snd_zip hprods.le
  let st := flatApplyInvperm products (sortedPerm order)
  have hst : st.length = shape.length := by
    rw [← hcnt, ← hprods]
    simp [st, flatApplyInvperm, length_foldl_set]
  have hback : (sortedPerm order).map (fun i => st.getD i 0) = products := by
    have hmap := @map_getD_foldl_set ((sortedPerm order).zip products)
      (by rw [hfst]; exact hperm.nodup_iff.mpr nodup_range)
      (replicate products.length 0)
      (by rw [hfst, length_replicate, hprods, hcnt]; exact hlt)
    rwa [hfst, hsnd] at hmap
  refine ⟨st, ?_, hst, ?_⟩
  · rw [flatCompactOrder, flatApplyPerm_eq hlt]
    rfl
  · have hmodes : (sortedPerm order).map (fun i => (⟨shape.getD i 0, st.getD i 0⟩ : Mode)) =
        zipWith Mode.mk sortedShape ((sortedPerm order).map fun i => st.getD i 0) := by
      rw [zipWith_map, zipWith_self]
    rw [hmodes, hback]
    refine compact_prefixProducts one_pos fun v hv => ?_
    obtain ⟨i, hi, rfl⟩ := mem_map.mp hv
    rw [getD_eq_getElem _ _ (hlt i hi)]
    exact hpos _ (getElem_mem _)

mutual
theorem exists_layout_of_congruent : ∀ {t u : IntTuple}, t.congruent u = true → ∃ l : Layout, l.shape = t ∧ l.stride = u
  | .value s, .value d, _ => ⟨.mode s d, rfl, rfl⟩
  | .tuple ts, .tuple us, h => by
    obtain ⟨ls, hts, hus⟩ := exists_layouts_of_congruent h
    exact ⟨.modes ls, by rw [shape, hts], by rw [stride, hus]⟩
theorem exists_layouts_of_congruent : ∀ {ts us : List IntTuple}, congruentAll ts us = true →
    ∃ ls : List Layout, shapes ls = ts ∧ strides ls = us
  | [], [], _ => ⟨[], rfl, rfl⟩
  | t :: ts, u :: us, h => by
    rw [congruentAll, Bool.and_eq_true] at h
    obtain ⟨l, hl⟩ := exists_layout_of_congruent h.1
    obtain ⟨ls, hls⟩ := exists_layouts_of_congruent h.2
    exact ⟨l :: ls, by rw [shapes, hl.1, hls.1], by rw [strides, hl.2, hls.2]⟩
end

theorem length_leaves_of_congruent {t u : IntTuple} (h : t.congruent u = true) : t.leaves.length = u.leaves.length := by
  obtain ⟨l, rfl, rfl⟩ := exists_layout_of_congruent h
  rw [leaves_shape, leaves_stride, length_map, length_map]

/-- A bijection onto its range in which a leaf of smaller order has finished its range where one of larger order starts.
    -/
structure OrderedBy (l : Layout) (order : IntTuple) : Prop where
  bijOn : Set.BijOn l.call (Set.Ico 0 l.size) (Set.Ico 0 l.size)
  dvd : ∀ {i j : ℕ} {oi oj : ℤ} {mi mj : Mode}, order.leaves[i]? = some oi →
    order.leaves[j]? = some oj → l.flat[i]? = some mi → l.flat[j]? = some mj → oi < oj →
    mi.stride * mi.extent ∣ mj.stride

theorem map_range_getD (ms : List Mode) (xs ys : List ℤ) (hxs : ms.map Mode.extent = xs)
    (hys : ms.map Mode.stride = ys) : ((range xs.length).map fun i => ⟨xs.getD i 0, ys.getD i 0⟩) = ms := by
  subst hxs hys
  refine ext_getElem (by simp) fun i h1 h2 => ?_
  simp [getD_eq_getElem?_getD, h2]

theorem rel_or_rel_of_pairwise {α : Type} {R : α → α → Prop} {l : List α} (h : l.Pairwise R)
    {a b : α} (ha : a ∈ l) (hb : b ∈ l) (hne : a ≠ b) : R a b ∨ R b a := by
  have : Std.Symm fun a b => R a b ∨ R b a := ⟨fun _ _ => Or.symm⟩
  have hsymm : l.Pairwise fun a b => R a b ∨ R b a := h.imp .inl
  exact hsymm.forall ha hb hne

theorem orderedBy_of_compact {l : Layout} {order : IntTuple}
    (hlen : l.shape.leaves.length = order.leaves.length) (hpos : l.shape.AllPositive)
    (hcompact : Compact 1 ((sortedPerm order.leaves).map fun i =>
      ⟨l.shape.leaves.getD i 0, l.stride.leaves.getD i 0⟩)) : OrderedBy l order := by
  obtain ⟨hperm, hsort⟩ := sortedPerm_spec order.leaves
  let mode : ℕ → Mode := fun i => ⟨l.shape.leaves.getD i 0, l.stride.leaves.getD i 0⟩
  have hflat : (range l.shape.leaves.length).map mode = l.flat :=
    map_range_getD l.flat _ _ (leaves_shape l).symm (leaves_stride l).symm
  have hmodes : l.flat.Perm ((sortedPerm order.leaves).map mode) := by
    rw [← hflat, hlen]
    exact (hperm.map mode).symm
  have hposflat : Positive l.flat := fun m hm =>
    hpos m.extent (by rw [leaves_shape]; exact mem_map_of_mem hm)
  have hreg : Regular l.flat := fun m hm => by
    refine ⟨hposflat m hm, (hcompact.stride_pos one_pos ?_ m (hmodes.mem_iff.mp hm)).le⟩
    exact fun p hp => hposflat p (hmodes.mem_iff.mpr hp)
  constructor
  · have hbij := MixedRadix.bijOn_offset_of_perm_compact hmodes hposflat hcompact
    rw [← size_eq hposflat] at hbij
    exact hbij.congr fun i hi => (call_eq_offset hreg hi.1 hi.2).symm
  · intro i j oi oj mi mj hoi hoj hmi hmj hlt
    have hat : ∀ {k : ℕ} {o : ℤ} {m : Mode}, order.leaves[k]? = some o → l.flat[k]? = some m →
        k ∈ sortedPerm order.leaves ∧ order.leaves.getD k 0 = o ∧ mode k = m := by
      intro k o m hk hm
      obtain ⟨hklt, rfl⟩ := List.getElem?_eq_some_iff.mp hk
      refine ⟨hperm.mem_iff.mpr (mem_range.mpr hklt), getD_eq_getElem _ _ hklt, ?_⟩
      rw [← hflat, getElem?_map, getElem?_range (by omega)] at hm
      exact Option.some.inj hm
    obtain ⟨hi, hoi, rfl⟩ := hat hoi hmi
    obtain ⟨hj, hoj, rfl⟩ := hat hoj hmj
    -- of two entries of the sorted permutation one comes first; here it is `i`
    have hpair := hsort.and (pairwise_map.mp hcompact.pairwise)
    have hne : i ≠ j := by
      rintro rfl
      exact hlt.ne (hoi.symm.trans hoj)
    rcases rel_or_rel_of_pairwise hpair hi hj hne with ⟨-, hdvd⟩ | ⟨hle, -⟩
    · exact hdvd
    · rw [hoi, hoj] at hle
      exact absurd hlt (not_lt.mpr hle)

/-- `make_ordered_layout` returns an ordered layout of the shape exactly where the shape is a tuple
that `to_nest` rebuilds. -/
theorem makeOrderedLayout_iff {shape order : IntTuple} (hpos : shape.AllPositive)
    (hcong : shape.congruent order = true) :
    (∃ l : Layout, makeOrderedLayout shape order = .ok (l.shape, l.stride) ∧ l.shape = shape ∧ OrderedBy l order) ↔
    (∃ ts, shape = .tuple ts) ∧ NestsBack shape := by
  have hlen := length_leaves_of_congruent hcong
  obtain ⟨st, hst, hcount, hcompact⟩ := flatCompactOrder_spec hlen hpos
  have hrun : makeOrderedLayout shape order =
      (toNest shape st).map fun stride => (shape, stride) := by
    rw [makeOrderedLayout, compactOrder, hst]
    rfl
  rw [hrun]
  cases shape with
  | value v =>
    refine iff_of_false ?_ (by simp)
    rintro ⟨l, hl, hshape, -⟩
    -- the stride of a bare integer comes back as a tuple
    rw [toNest, getItem_of_lt (by rw [hcount]; simp [leaves])] at hl
    cases l with
    | mode s d => cases hl
    | modes ls => cases hshape
  | tuple ts =>
    have hhand : AtHand ts st 0 := .inr (by rw [hcount, Nat.zero_add]; rfl)
    constructor
    · rintro ⟨l, hl, -, -⟩
      refine ⟨⟨ts, rfl⟩, by_contra fun hback => ?_⟩
      obtain ⟨f, hf⟩ := toNestItems_fault ts st 0 hback hhand
      rw [toNest_of_items hf] at hl
      cases hl
    · rintro ⟨-, hback⟩
      obtain ⟨t, ht, htcong, hleaves⟩ := toNest_spec ts st hback hhand
      obtain ⟨l, hshape, hstride⟩ := exists_layout_of_congruent htcong
      refine ⟨l, by rw [ht, hshape, hstride]; rfl, hshape, ?_⟩
      have hstrides : l.stride.leaves = st := by
        rw [hstride, hleaves, drop_zero]
        exact take_of_length_le hcount.le
      refine orderedBy_of_compact (by rw [hshape]; exact hlen) (by rw [hshape]; exact hpos) ?_
      rw [hstrides, hshape]
      exact hcompact

theorem makeOrderedLayout_iff_pair : (∃ l : Layout, makeOrderedLayout (.tuple [.value 2, .tuple [.value 3, .value 4]])
        (.tuple [.value 1, .tuple [.value 3, .value 2]]) = .ok (l.shape, l.stride) ∧
      l.shape = .tuple [.value 2, .tuple [.value 3, .value 4]] ∧
      OrderedBy l (.tuple [.value 1, .tuple [.value 3, .value 2]])) ↔
    (∃ ts, tuple [.value 2, .tuple [.value 3, .value 4]] = .tuple ts) ∧
      NestsBack (.tuple [.value 2, .tuple [.value 3, .value 4]]) :=
  makeOrderedLayout_iff (by simp [IntTuple.AllPositive, leaves, leavesAll]) rfl

/-- A nested tuple of three takes two strides, and the third is read past the end. -/
theorem makeOrderedLayout_triple : makeOrderedLayout (.tuple [.tuple [.value 2, .value 3, .value 4], .value 5])
        (.tuple [.tuple [.value 1, .value 2, .value 3], .value 4]) =
      .error .indexOutOfBounds := rfl

end MojoProse.Layouts
