import MojoProse.Layouts.IntTuple

/-!
# Layouts and their index maps

A layout is a shape and a stride of one nesting. The two tuples are kept together here, leaf by
leaf, so that a layout with an incongruent stride cannot be built; `shape` and `stride` give back
the two tuples of the source. The main fact is `call_eq_offset`: on its domain a layout reads its
index in mixed radix over its flattened modes, whatever fast path `crd2idx` takes.
-/

namespace MojoProse.Layouts

open IntTuple List Int

open Schemes.MixedRadix (Mode Positive offset reach)
open Schemes

inductive Layout where
  | mode (shape stride : ℤ)
  | modes (items : List Layout)

namespace Layout

mutual
def shape : Layout → IntTuple
  | mode s _ => .value s
  | modes ls => .tuple (shapes ls)
def shapes : List Layout → List IntTuple
  | [] => []
  | l :: ls => l.shape :: shapes ls
end

mutual
def stride : Layout → IntTuple
  | mode _ d => .value d
  | modes ls => .tuple (strides ls)
def strides : List Layout → List IntTuple
  | [] => []
  | l :: ls => l.stride :: strides ls
end

mutual
/-- The modes of the flattened layout: `zip(flatten(shape), flatten(stride))`. -/
def flat : Layout → List Mode
  | mode s d => [⟨s, d⟩]
  | modes ls => flatAll ls
def flatAll : List Layout → List Mode
  | [] => []
  | l :: ls => l.flat ++ flatAll ls
end

/-- What iterating over a layout yields; `layout[i]` is the `i`-th of these. -/
def items : Layout → List Layout
  | mode s d => [mode s d]
  | modes ls => ls

/-- `size`: the product of all extents. -/
def size (l : Layout) : ℤ := l.shape.product

/-- The layout whose two modes hold direct integers, the first fast path of `crd2idx`. -/
def directPair : List Layout → Option (Mode × Mode)
  | [mode s₀ d₀, mode s₁ d₁] => some (⟨s₀, d₀⟩, ⟨s₁, d₁⟩)
  | _ => none

/-- The two-mode fast path on direct integers. -/
def pairIndex (m₀ m₁ : Mode) (c : ℤ) : ℤ :=
  if unknownValue ∈ [m₀.extent, m₁.extent, m₀.stride, m₁.stride] then unknownValue
  else c.fmod m₀.extent * m₀.stride + (c.fdiv m₀.extent).fmod m₁.extent * m₁.stride

/-- The test of the two-mode fast path on nested modes for an unknown leading size. -/
def unknownLead : List Layout → Bool
  | [l, _] => l.size = unknownValue
  | _ => false

mutual
/-- `crd2idx(crd, shape, stride)`. -/
def crd2idx : Layout → IntTuple → ℤ
  | mode s d, .value c =>
    if c = unknownValue ∨ s = unknownValue ∨ d = unknownValue then unknownValue else c * d
  | mode _ _, .tuple _ => 0
  | modes ls, .value c =>
    if ls.length = 2 ∧ c = unknownValue then unknownValue
    else
      match directPair ls with
      | some (m₀, m₁) => pairIndex m₀ m₁ c
      | none => if unknownLead ls then unknownValue else crd2idxItems ls c
  | modes ls, .tuple cs => crd2idxZip ls cs
/-- An integer coordinate is divided through all modes but the last. -/
def crd2idxItems : List Layout → ℤ → ℤ
  | [], _ => 0
  | l :: ls, c =>
    if ls.isEmpty then crd2idx l (.value c)
    else crd2idx l (.value (c.fmod l.size)) + crd2idxItems ls (c.fdiv l.size)
def crd2idxZip : List Layout → List IntTuple → ℤ
  | l :: ls, c :: cs => crd2idx l c + crd2idxZip ls cs
  | _, _ => 0
end

/-- `layout(i)` for an integer coordinate. -/
def call (l : Layout) (i : ℤ) : ℤ := l.crd2idx (.value i)

mutual
theorem leaves_shape : ∀ l : Layout, l.shape.leaves = l.flat.map Mode.extent
  | mode s d => rfl
  | modes ls => by rw [shape, leaves, leavesAll_shapes ls, flat]
theorem leavesAll_shapes : ∀ ls : List Layout, leavesAll (shapes ls) = (flatAll ls).map Mode.extent
  | [] => rfl
  | l :: ls => by
    rw [shapes, leavesAll, leaves_shape l, leavesAll_shapes ls, flatAll, map_append]
end

mutual
theorem leaves_stride : ∀ l : Layout, l.stride.leaves = l.flat.map Mode.stride
  | mode s d => rfl
  | modes ls => by rw [stride, leaves, leavesAll_strides ls, flat]
theorem leavesAll_strides : ∀ ls : List Layout, leavesAll (strides ls) = (flatAll ls).map Mode.stride
  | [] => rfl
  | l :: ls => by
    rw [strides, leavesAll, leaves_stride l, leavesAll_strides ls, flatAll, map_append]
end

/-- Known positive extents and known non-negative strides. -/
def Regular (ms : List Mode) : Prop := ∀ m ∈ ms, 0 < m.extent ∧ 0 ≤ m.stride

theorem Regular.positive {ms : List Mode} (h : Regular ms) : Positive ms := fun m hm => (h m hm).1

theorem regular_append {xs ys : List Mode} : Regular (xs ++ ys) ↔ Regular xs ∧ Regular ys := forall_mem_append

theorem size_eq {l : Layout} (h : Positive l.flat) : l.size = MixedRadix.size l.flat := by
  have hleaves : ∀ v ∈ l.shape.leaves, 0 < v := by
    intro v hv
    rw [leaves_shape] at hv
    obtain ⟨m, hm, rfl⟩ := mem_map.mp hv
    exact h m hm
  rw [size, product_eq hleaves, leaves_shape, MixedRadix.size]

theorem size_pos {l : Layout} (h : Positive l.flat) : 0 < l.size := by
  rw [size_eq h]
  exact MixedRadix.size_pos h

theorem ne_unknown {v : ℤ} (h : 0 ≤ v) : v ≠ unknownValue := by
  rw [unknownValue]
  omega

theorem directPair_some {ls : List Layout} {m0 m1 : Mode} (h : directPair ls = some (m0, m1)) :
    ls = [mode m0.extent m0.stride, mode m1.extent m1.stride] := by
  unfold directPair at h
  split at h
  · cases h
    rfl
  · cases h

theorem unknownLead_eq_false {ls : List Layout} (h : Positive (flatAll ls)) : unknownLead ls = false := by
  unfold unknownLead
  split
  · next l l' =>
    rw [flatAll, MixedRadix.positive_append] at h
    simpa using ne_unknown (size_pos h.1).le
  · rfl

theorem pairIndex_eq {m0 m1 : Mode} (h : Regular [m0, m1]) (c : ℤ) : pairIndex m0 m1 c = offset [m0, m1] c := by
  obtain ⟨hm0, hd0⟩ := h m0 (by simp)
  obtain ⟨hm1, hd1⟩ := h m1 (by simp)
  have hknown : unknownValue ∉ [m0.extent, m1.extent, m0.stride, m1.stride] := by
    simp [(ne_unknown hm0.le).symm, (ne_unknown hm1.le).symm, (ne_unknown hd0).symm, (ne_unknown hd1).symm]
  rw [pairIndex, if_neg hknown, fmod_eq_emod_of_nonneg _ hm0.le,
    fmod_eq_emod_of_nonneg _ hm1.le, fdiv_eq_ediv_of_nonneg _ hm0.le]
  simp [offset]

mutual
/-- On its domain a layout reads its index in mixed radix over its flattened modes. -/
theorem call_eq_offset : ∀ {l : Layout} {c : ℤ}, Regular l.flat → 0 ≤ c → c < l.size → l.call c = offset l.flat c
  | mode s d, c, h, h0, hc => by
    obtain ⟨hs, hd⟩ := h ⟨s, d⟩ (by simp [flat])
    have hlt : c < s := hc
    rw [call, crd2idx, if_neg (by simp [ne_unknown h0, ne_unknown hs.le, ne_unknown hd])]
    simp [flat, offset, emod_eq_of_lt h0 hlt]
  | modes ls, c, h, h0, hc => by
    rw [size_eq h.positive, flat] at hc
    rw [flat] at h ⊢
    rw [call, crd2idx, if_neg fun hne => ne_unknown h0 hne.2]
    split
    · next m0 m1 hpair =>
      rw [directPair_some hpair] at h ⊢
      exact pairIndex_eq h c
    · rw [unknownLead_eq_false h.positive, if_neg (by simp), crd2idxItems_eq h h0 hc]
theorem crd2idxItems_eq : ∀ {ls : List Layout} {c : ℤ}, Regular (flatAll ls) → 0 ≤ c →
    c < MixedRadix.size (flatAll ls) → crd2idxItems ls c = offset (flatAll ls) c
  | [], c, _, _, _ => rfl
  | [l], c, h, h0, hc => by
    simp only [flatAll, append_nil] at h hc ⊢
    rw [← size_eq h.positive] at hc
    rw [crd2idxItems, isEmpty_nil, if_pos rfl]
    exact call_eq_offset h h0 hc
  | l :: l' :: ls, c, h, h0, hc => by
    rw [flatAll, regular_append] at h
    rw [flatAll, MixedRadix.size_append] at hc
    have hl := size_eq h.1.positive
    have hpos := size_pos h.1.positive
    rw [crd2idxItems, isEmpty_cons, if_neg (by simp), fmod_eq_emod_of_nonneg _ hpos.le,
      fdiv_eq_ediv_of_nonneg _ hpos.le,
      crd2idxItems_eq h.2 (Int.ediv_nonneg h0 hpos.le)
        (Int.ediv_lt_of_lt_mul hpos (by rw [hl]; linarith)), flatAll.eq_2 l,
      MixedRadix.offset_append h.1.positive, ← MixedRadix.offset_emod h.1.positive c, ← hl]
    congr 1
    exact call_eq_offset h.1 (emod_nonneg _ hpos.ne') (emod_lt_of_pos _ hpos)
end

end Layout

end MojoProse.Layouts
