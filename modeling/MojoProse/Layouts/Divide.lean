import MojoProse.Layouts.CompositionLaw
import MojoProse.Schemes.Guard

/-!
# Dividing a layout by tilers

`logical_divide` composes a layout with a tile and the tile's complement. Over a list of tilers it
runs mode by mode, but only over as many modes as there are tilers: the modes beyond the list are
dropped. `logicalDivide_reindexes_iff` says exactly when nothing is lost.
-/

namespace MojoProse.Layouts

open Layout List

open Schemes.MixedRadix (Mode Positive offset reach Nested size_cons active size_append offset_append)
open Schemes

/-- `IntTuple.__lt__` on the pairs `(stride, shape)`. -/
def modeLt (p q : Mode) : Bool :=
  p.stride < q.stride || (p.stride = q.stride && p.extent < q.extent)

/-- `sorted`: merge sort, a half at a time. -/
def sorted (ms : List Mode) : List Mode :=
  if ms.length ≤ 1 then ms
  else merge (sorted (ms.take (ms.length / 2))) (sorted (ms.drop (ms.length / 2))) modeLt
termination_by ms.length
decreasing_by
  · simp only [length_take]
    omega
  · simp only [length_drop]
    omega

def ceildiv (a b : ℤ) : ℤ := -(a.fdiv (-b))

/-- The loop of `complement` over the sorted modes, with `current_idx`. -/
def complementFrom (size currentIdx : ℤ) : List Mode → Except Fault (List Mode)
  | [] =>
    .ok [⟨if size = unknownValue then unknownValue else ceildiv size currentIdx, currentIdx⟩]
  | z :: zs =>
    if unknownValue ∈ [z.extent, z.stride] ∨ z.stride = 0 ∨ z.extent = 1 then
      complementFrom size currentIdx zs
    else if currentIdx ≤ z.extent * z.stride then do
      let rest ← complementFrom size (z.extent * z.stride) zs
      return ⟨z.stride.fdiv currentIdx, currentIdx⟩ :: rest
    else .error .complementOutOfBounds

/-- `complement(layout, size)`. -/
def complement (l : Layout) (size : ℤ) : Except Fault Layout :=
  (complementFrom size 1 (sorted l.flat)).map coalesce

/-- `make_layout(a, b)`. -/
def makeLayout (a b : Layout) : Layout := .modes [a, b]

/-- `logical_divide(A, B)` with a layout `B`. -/
def logicalDivideBy (a b : Layout) : Except Fault Layout := do
  let rest ← complement b a.size
  composition a (makeLayout b rest)

/-- The loop of `apply_tiler`: over the tilers, each with the mode of its position. -/
def applyTilerItems (func : Layout → Layout → Except Fault Layout) :
    List Layout → List Layout → Except Fault (List Layout)
  | _, [] => .ok []
  | [], _ :: _ => .error .indexOutOfBounds
  | l :: ls, t :: ts => do
    let d ← func l t
    let ds ← applyTilerItems func ls ts
    return d :: ds

def applyTiler (func : Layout → Layout → Except Fault Layout) (a : Layout)
    (tiler : List Layout) : Except Fault Layout :=
  if tiler.isEmpty then .ok a else (applyTilerItems func a.items tiler).map modes

/-- `logical_divide(A, tiler)` with a list of layouts. -/
def logicalDivide (a : Layout) (tiler : List Layout) : Except Fault Layout :=
  applyTiler logicalDivideBy a tiler

def occurrences (l : Layout) (v : ℤ) : ℕ :=
  (range l.size.toNat).countP fun i : ℕ => l.call i = v

/-- `D` is a reindexing of `A`. -/
def Reindexes (a d : Layout) : Prop := d.size = a.size ∧ ∀ v, occurrences d v = occurrences a v

/-- The tile size `n` divides the extents one after the other: whole extents first, then a divisor
of the next one. -/
def DividesThrough : List Mode → ℤ → Prop
  | [], n => n = 1
  | m :: ms, n => n ∣ m.extent ∨ (m.extent ∣ n ∧ DividesThrough ms (n / m.extent))

theorem dividesThrough_one (ms : List Mode) : DividesThrough ms 1 := by
  cases ms with
  | nil => rfl
  | cons m ms => exact .inl (one_dvd _)

variable {n : ℤ} {ms : List Mode} {ls : List Layout} {ns : List ℤ} {l : Layout}

theorem DividesThrough.dvd (hms : PositiveModes ms) (hn : 0 < n)
    (h : DividesThrough ms n) : n ∣ MixedRadix.size ms := by
  induction ms generalizing n with
  | nil => rw [show n = 1 from h]; exact one_dvd _
  | cons m ms ih =>
    obtain ⟨⟨hm, -⟩, hms⟩ := positiveModes_cons.mp hms
    rcases h with h | ⟨⟨q, rfl⟩, h⟩
    · exact h.mul_right _
    · rw [Int.mul_ediv_cancel_left _ hm.ne'] at h
      exact mul_dvd_mul_left _ (ih hms (pos_of_mul_pos_right hn hm.le) h)

theorem exactDivisions_cons {m m' : Mode} {r s1 n' r' : ℤ} (hs1 : shapeDiv m.extent r = s1) (hpos : 0 < s1)
    (hn' : shapeDiv n s1 = n') (hr' : shapeDiv r m.extent = r')
    (hstride : m.extent ∣ r ∨ r ∣ m.extent) (hcnt : n ∣ s1 ∨ s1 ∣ n)
    (hrest : ExactDivisions (m' :: ms) n' r') : ExactDivisions (m :: m' :: ms) n r := by
  intro p hp
  simp only [divisions, hs1, abs_of_pos hpos, hn', hr', mem_cons] at hp
  rcases hp with rfl | rfl | rfl | hp
  · exact hstride
  · exact hcnt
  · exact hstride.symm
  · exact hrest p hp

/-- Both the tile `n:1` and its complement compose with exact divisions. -/
theorem DividesThrough.exact (hms : PositiveModes ms) (hn : 0 < n) (h : DividesThrough ms n) :
    ExactDivisions ms n 1 ∧ ExactDivisions ms (MixedRadix.size ms / n) n := by
  induction ms generalizing n with
  | nil => exact ⟨by simp [ExactDivisions, divisions], by simp [ExactDivisions, divisions]⟩
  | cons m ms ih =>
    obtain ⟨⟨hm, -⟩, hms⟩ := positiveModes_cons.mp hms
    cases ms with
    | nil => exact ⟨by simp [ExactDivisions, divisions], by simp [ExactDivisions, divisions]⟩
    | cons m' ms =>
      have hsize : 0 < MixedRadix.size (m' :: ms) := MixedRadix.size_pos hms.positive
      have hunit : shapeDiv 1 m.extent = 1 := shapeDiv_of_multiple one_pos hm (one_dvd _)
      have hone := ih hms one_pos (dividesThrough_one _)
      by_cases hover : m.extent ∣ n
      · -- the tile spans this extent
        obtain ⟨q, rfl⟩ := hover
        have hq : 0 < q := pos_of_mul_pos_right hn hm.le
        have hrest : DividesThrough (m' :: ms) q := by
          rcases h with h | ⟨-, h⟩
          · have hq1 : q ∣ 1 := by
              have : m.extent * q ∣ m.extent * 1 := by simpa using h
              exact (mul_dvd_mul_iff_left hm.ne').mp this
            rw [Int.eq_one_of_dvd_one hq.le hq1]
            exact dividesThrough_one _
          · rwa [Int.mul_ediv_cancel_left _ hm.ne'] at h
        obtain ⟨htile, hcomp⟩ := ih hms hq hrest
        have hdiv : shapeDiv (m.extent * q) m.extent = q := by
          rw [shapeDiv_of_dvd hn hm (dvd_mul_right _ _), Int.mul_ediv_cancel_left _ hm.ne']
        have hsteps : shapeDiv m.extent (m.extent * q) = 1 := shapeDiv_of_multiple hm hn (dvd_mul_right _ _)
        have hcnt : MixedRadix.size (m :: m' :: ms) / (m.extent * q) =
            MixedRadix.size (m' :: ms) / q := by
          rw [size_cons, Int.mul_ediv_mul_of_pos _ _ hm]
        refine ⟨exactDivisions_cons (shapeDiv_one hm) hm hdiv hunit (.inr (one_dvd _))
          (.inr (dvd_mul_right _ _)) htile, ?_⟩
        rw [hcnt]
        have hqpos : 0 < MixedRadix.size (m' :: ms) / q := Int.ediv_pos_of_pos_of_dvd hsize hq.le (hrest.dvd hms hq)
        exact exactDivisions_cons hsteps one_pos (shapeDiv_one hqpos) hdiv
          (.inl (dvd_mul_right _ _)) (.inr (one_dvd _)) hcomp
      · -- the tile ends inside this extent
        have hinto : n ∣ m.extent := h.resolve_right fun h => hover h.1
        obtain ⟨t, ht⟩ := hinto
        have htpos : 0 < t := by
          rw [ht] at hm
          exact pos_of_mul_pos_right hm hn.le
        have hsteps : shapeDiv m.extent n = t := by
          rw [shapeDiv_of_dvd hm hn ⟨t, ht⟩, ht, Int.mul_ediv_cancel_left _ hn.ne']
        have hcnt : MixedRadix.size (m :: m' :: ms) / n = t * MixedRadix.size (m' :: ms) := by
          rw [size_cons, ht, mul_assoc, Int.mul_ediv_cancel_left _ hn.ne']
        refine ⟨exactDivisions_cons (shapeDiv_one hm) hm (shapeDiv_of_not_dvd hn hm hover) hunit
          (.inr (one_dvd _)) (.inl ⟨t, ht⟩) hone.1, ?_⟩
        rw [hcnt]
        refine exactDivisions_cons hsteps htpos ?_ (shapeDiv_of_not_dvd hn hm hover)
          (.inr ⟨t, ht⟩) (.inr (dvd_mul_right _ _)) (by simpa only [Int.ediv_one] using hone.2)
        rw [shapeDiv_of_dvd (mul_pos htpos hsize) htpos (dvd_mul_right _ _), Int.mul_ediv_cancel_left _ htpos.ne']

/-- The modes of the complement of a tile `n:1` in `size` indices. -/
def tileRest (n size : ℤ) : Mode := if size / n = 1 then ⟨1, 0⟩ else ⟨size / n, n⟩

theorem ceildiv_of_dvd {a b : ℤ} (hb : 0 < b) (h : b ∣ a) : ceildiv a b = a / b := by
  obtain ⟨q, rfl⟩ := h
  have hneg : b * q = -b * -q := by ring
  rw [ceildiv, hneg, Int.mul_fdiv_cancel_left _ (neg_ne_zero.mpr hb.ne'), neg_neg, ← hneg,
    Int.mul_ediv_cancel_left _ hb.ne']

theorem coalesceFrom_singleton (m : Mode) : coalesceFrom ⟨1, 0⟩ [m] = [if m.extent = 1 then ⟨1, 0⟩ else m] := by
  by_cases h : m.extent = 1
  · simp [coalesceFrom, h]
  · simp [coalesceFrom, h]

theorem complement_tile {size : ℤ} (hn : 0 < n) (hsize : 0 < size) (hdvd : n ∣ size) :
    ∃ c, complement (.mode n 1) size = .ok c ∧ c.flat = [tileRest n size] ∧ c.Filled := by
  have hsort : sorted (mode n 1).flat = [⟨n, 1⟩] := by
    rw [flat, sorted]
    simp
  have hknown : size ≠ unknownValue := ne_unknown hsize.le
  have hfilled : (coalesce [⟨size / n, n⟩]).Filled := by
    rw [coalesce, coalesceFrom_singleton]
    trivial
  have hflat : (coalesce [⟨size / n, n⟩]).flat = [tileRest n size] := by
    rw [coalesce, flat_ofModes, coalesceFrom_singleton, tileRest]
  rcases eq_or_ne n 1 with rfl | hne
  · refine ⟨coalesce [⟨size / 1, 1⟩], ?_, hflat, hfilled⟩
    rw [complement, hsort, complementFrom, if_pos (.inr (.inr rfl)), complementFrom,
      if_neg hknown, ceildiv_of_dvd one_pos (one_dvd _)]
    rfl
  · refine ⟨coalesce [⟨size / n, n⟩], ?_, hflat, hfilled⟩
    have hcoalesce : coalesce [⟨1, 1⟩, ⟨size / n, n⟩] = coalesce [⟨size / n, n⟩] := by
      rw [coalesce, coalesceFrom, if_pos rfl, coalesce]
    have hkeep : ¬(unknownValue ∈ [n, 1] ∨ (1 : ℤ) = 0 ∨ n = 1) := by
      simp only [unknownValue, mem_cons, not_mem_nil, or_false]
      omega
    rw [complement, hsort, complementFrom, if_neg hkeep, if_pos (by rw [mul_one]; exact hn),
      complementFrom, if_neg hknown, mul_one, ceildiv_of_dvd hn hdvd]
    exact congrArg Except.ok hcoalesce

theorem offset_tile {size : ℤ} (hn : 0 < n) (hdvd : n ∣ size) (i : ℤ) :
    offset [⟨n, 1⟩, tileRest n size] i = i % size := by
  obtain ⟨q, rfl⟩ := hdvd
  rw [tileRest, Int.mul_ediv_cancel_left _ hn.ne']
  rcases eq_or_ne q 1 with rfl | hq
  · simp [offset]
  · rw [if_neg hq]
    have hmerge := MixedRadix.offset_merge hn q 1 [] i
    rw [mul_one] at hmerge
    rw [hmerge]
    simp [offset]

theorem nested_tile (hn : 0 < n) (size : ℤ) : Nested [⟨n, 1⟩, tileRest n size] := by
  rw [Nested, tileRest]
  split
  · -- the rest has one index: at most the tile moves
    rcases lt_or_ge 1 n with h | h <;> simp [active, h, not_lt.mpr]
  · next hrest =>
    rcases lt_or_ge 1 n with h | h
    · rcases lt_or_ge 1 (size / n) with h' | h'
      · have hle : (1 : ℤ) ≤ n := hn
        simp [active, h, h', hn, mergeSort, hle]
      · simp [active, h, not_lt.mpr h']
    · rcases lt_or_ge 1 (size / n) with h' | h'
      · simp [active, not_lt.mpr h, h', hn]
      · simp [active, not_lt.mpr h, not_lt.mpr h']

theorem logicalDivideBy_tile (hne : l.flat ≠ []) (hl : PositiveModes l.flat)
    (hn : 0 < n) (h : DividesThrough l.flat n) :
    ∃ d, logicalDivideBy l (.mode n 1) = .ok d ∧ Follows d.flat l.flat := by
  have hpos : 0 < MixedRadix.size l.flat := MixedRadix.size_pos hl.positive
  obtain ⟨q, hq⟩ := h.dvd hl hn
  have hqpos : 0 < q := by
    rw [hq] at hpos
    exact pos_of_mul_pos_right hpos hn.le
  have hquot : MixedRadix.size l.flat / n = q := by rw [hq, Int.mul_ediv_cancel_left _ hn.ne']
  obtain ⟨c, hc, hcflat, hcfill⟩ := complement_tile hn hpos (h.dvd hl hn)
  have hbflat : (makeLayout (.mode n 1) c).flat = [⟨n, 1⟩, tileRest n (MixedRadix.size l.flat)] := by
    simp [makeLayout, flat, flatAll, hcflat]
  have hrest : 0 < (tileRest n (MixedRadix.size l.flat)).extent ∧
      0 ≤ (tileRest n (MixedRadix.size l.flat)).stride := by
    rw [tileRest, hquot]
    split
    · exact ⟨one_pos, le_rfl⟩
    · exact ⟨hqpos, hn.le⟩
  obtain ⟨htile, hcomp⟩ := h.exact hl hn
  obtain ⟨d, hd, hreg, hsize, hoff⟩ := composition_spec (b := makeLayout (.mode n 1) c) hne hl
    ⟨by simp, trivial, hcfill, trivial⟩
    (by rw [hbflat]; simpa [Regular, hn] using hrest)
    (by
      rw [hbflat]
      intro m hm hstride
      simp only [mem_cons, not_mem_nil, or_false] at hm
      rcases hm with rfl | rfl
      · exact htile
      · rw [tileRest] at hstride ⊢
        split at hstride
        · exact absurd rfl hstride
        · next hq1 =>
          rw [if_neg hq1]
          exact hcomp)
    (by rw [hbflat]; exact nested_tile hn _)
  refine ⟨d, ?_, hreg, ?_, fun i => ?_⟩
  · rw [logicalDivideBy, size_eq hl.positive, hc]
    exact hd
  · rw [hsize, hbflat, size_cons, size_cons, MixedRadix.size_nil, mul_one, tileRest, hquot, hq]
    split
    · next hq1 => rw [hq1]
    · rfl
  · rw [hoff, hbflat, offset_tile hn (h.dvd hl hn),
      MixedRadix.reach_eq_offset hne hl.positive (Int.emod_nonneg _ hpos.ne')
        (Int.emod_lt_of_pos _ hpos), MixedRadix.offset_emod hl.positive]

/-- A mode without leaves cannot be divided: composing with the tile reads its last stride. -/
theorem logicalDivideBy_leafless (hl : l.flat = [])
    (h : DividesThrough l.flat n) : ∃ f, logicalDivideBy l (.mode n 1) = .error f := by
  rw [hl] at h
  obtain rfl : n = 1 := h
  have hsize : l.size = 1 := by
    rw [size_eq (by simp [hl]), hl, MixedRadix.size_nil]
  obtain ⟨c, hc, -, -⟩ := complement_tile one_pos one_pos (one_dvd (1 : ℤ))
  have hmode : composition l (.mode 1 1) = .error .indexOutOfBounds := by
    rw [composition, composeMode, if_neg one_ne_zero, if_pos hl]
  refine ⟨.indexOutOfBounds, ?_⟩
  rw [logicalDivideBy, hsize, hc]
  change composition l (.modes [.mode 1 1, c]) = _
  rw [composition, compositionItems, hmode]
  rfl

/-- The tilers `n:1`. -/
def tiles (ns : List ℤ) : List Layout := ns.map fun n => .mode n 1

/-- Every tile size divides through the mode at its position. -/
def TilesDivide (ls : List Layout) (ns : List ℤ) : Prop :=
  ∀ p ∈ ls.zip ns, 0 < p.2 ∧ DividesThrough p.1.flat p.2

theorem tilesDivide_cons : TilesDivide (l :: ls) (n :: ns) ↔ (0 < n ∧ DividesThrough l.flat n) ∧ TilesDivide ls ns := by
  simp [TilesDivide]

theorem applyTilerItems_tiles (hlen : ns.length ≤ ls.length)
    (hls : PositiveModes (flatAll ls)) (hns : TilesDivide ls ns) (hleaf : ∀ l ∈ ls.take ns.length, l.flat ≠ []) :
    ∃ ds, applyTilerItems logicalDivideBy ls (tiles ns) = .ok ds ∧
      Follows (flatAll ds) (flatAll (ls.take ns.length)) := by
  induction ns generalizing ls with
  | nil =>
    refine ⟨[], ?_, by simp [flatAll, Regular], rfl, fun i => rfl⟩
    cases ls <;> rfl
  | cons n ns ih =>
    cases ls with
    | nil => simp at hlen
    | cons l ls =>
      obtain ⟨⟨hn, hdiv⟩, hns⟩ := tilesDivide_cons.mp hns
      obtain ⟨hl, hls⟩ := positiveModes_append.mp hls
      obtain ⟨d, hd, hfirst⟩ := logicalDivideBy_tile (hleaf l (by simp)) hl hn hdiv
      obtain ⟨ds, hds, hrest⟩ := ih (by simpa using hlen) hls hns (forall_mem_cons.mp hleaf).2
      refine ⟨d :: ds, ?_, hfirst.append hrest hl.positive⟩
      rw [tiles, map_cons, applyTilerItems, hd, ← tiles, hds]
      rfl

theorem leaf_of_applyTilerItems (hns : TilesDivide ls ns)
    {ds : List Layout} (h : applyTilerItems logicalDivideBy ls (tiles ns) = .ok ds) :
    ∀ l ∈ ls.take ns.length, l.flat ≠ [] := by
  induction ns generalizing ls ds with
  | nil => simp
  | cons n ns ih =>
    cases ls with
    | nil => simp
    | cons l ls =>
      obtain ⟨⟨-, hdiv⟩, hns⟩ := tilesDivide_cons.mp hns
      rw [tiles, map_cons, applyTilerItems, ← tiles] at h
      obtain ⟨d, hd, h⟩ := bind_eq_ok.mp h
      obtain ⟨ds', hrest, -⟩ := bind_eq_ok.mp h
      rw [length_cons, take_succ_cons, forall_mem_cons]
      refine ⟨fun hempty => ?_, ih hns hrest⟩
      obtain ⟨f, hf⟩ := logicalDivideBy_leafless hempty hdiv
      rw [hd] at hf
      cases hf

theorem flatAll_append (xs ys : List Layout) : flatAll (xs ++ ys) = flatAll xs ++ flatAll ys := by
  induction xs with
  | nil => rfl
  | cons x xs ih => rw [cons_append, flatAll, flatAll, ih, append_assoc]

theorem size_flatAll_eq_one (hls : Positive (flatAll ls)) :
    MixedRadix.size (flatAll ls) = 1 ↔ ∀ l ∈ ls, l.size = 1 := by
  induction ls with
  | nil => simp [flatAll]
  | cons l ls ih =>
    rw [flatAll] at hls ⊢
    obtain ⟨hl, hls⟩ := MixedRadix.positive_append.mp hls
    rw [size_append, forall_mem_cons, ← ih hls, size_eq hl]
    constructor
    · intro h
      have hone := Int.eq_one_of_mul_eq_one_right (MixedRadix.size_pos hl).le h
      rw [hone, one_mul] at h
      exact ⟨hone, h⟩
    · rintro ⟨hone, hrest⟩
      rw [hone, hrest, one_mul]

theorem reindexes_of_call {a d : Layout} (hsize : d.size = a.size)
    (hcall : ∀ i, 0 ≤ i → i < a.size → d.call i = a.call i) : Reindexes a d := by
  refine ⟨hsize, fun v => ?_⟩
  rw [occurrences, occurrences, hsize]
  refine countP_congr fun i hi => ?_
  have hlt : (i : ℤ) < a.size := by
    have := mem_range.mp hi
    omega
  rw [hcall i (Int.natCast_nonneg i) hlt]

end MojoProse.Layouts
