import MojoProse.Schemes.Guard
import MojoProse.Support.Math

/-! Slices of a static dimension (`slice_tensor.py`), and the positions that the kernel's view reads (`slice.mojo`). -/

namespace MojoProse.Graph

open Schemes Support List

/-- A Python `slice`. -/
structure Slice where
  start : Option ℤ
  stop : Option ℤ
  step : Option ℤ

structure ConcreteSlice where
  start : ℤ
  stop : ℤ
  step : ℤ

/-- What `_concrete_static_slice` raises: one text for a start and for a stop that is out of range. -/
inductive SliceError where
  | zeroStep (index : Slice)
  | outOfRange (bound n : ℤ)

def concreteStaticSlice (n : ℤ) (index : Slice) : Except SliceError ConcreteSlice := do
  let step := index.step.getD 1
  let start := index.start.getD (if step ≥ 0 then 0 else n - 1)
  let stop := index.stop.getD (if step ≥ 0 then n else -1)
  raiseIf (step = 0) (.zeroStep index)
  raiseIf (¬(-n ≤ start ∧ start < n)) (.outOfRange start n)
  raiseIf (¬(-n ≤ stop ∧ stop ≤ n)) (.outOfRange stop n)
  return {
    start := if start < 0 then n + start else start
    stop := if stop < 0 ∧ index.stop ≠ none then n + stop else stop
    step }

/-- `_static_slice`: the slice and the size of the output. -/
def staticSlice (n : ℤ) (index : Slice) : Except SliceError (ConcreteSlice × ℤ) := do
  let c ← concreteStaticSlice n index
  return (c, max 0 ((c.stop - c.start + (c.step - if c.step > 0 then 1 else -1)).fdiv c.step))

def normalizeAndClampDim (start step dim : ℤ) : ℤ :=
  let normalized := if start < 0 then start + dim else start
  max (if step > 0 then 0 else -1) (min normalized (if step > 0 then dim else dim - 1))

/-- `len(range(start, stop, step))` in the kernel. -/
def rangeCount (start stop step : ℤ) : ℤ :=
  if step > 0 ∧ start > stop ∨ step < 0 ∧ start < stop then 0 else ceildiv |start - stop| |step|

/-- The positions that the view of `slice_as_view` reads in a dimension. -/
def viewPositions (n : ℤ) (c : ConcreteSlice) : List ℤ :=
  let start := normalizeAndClampDim c.start c.step n
  let stop := normalizeAndClampDim c.stop c.step n
  (range (rangeCount start stop c.step).toNat).map fun (i : ℕ) => start + i * c.step

/-- How many steps Python's `range` takes from `start` until it reaches `stop`. -/
def pythonCount (start stop step : ℤ) : ℕ :=
  (ceildiv (if step > 0 then stop - start else start - stop) |step|).toNat

/-- The elements of `range(start, stop, step)`. -/
def pythonRange (start stop step : ℤ) : List ℤ :=
  (range (pythonCount start stop step)).map fun (i : ℕ) => start + i * step

def pythonBound (n lower upper : ℤ) : ℤ → ℤ := fun bound =>
  if bound < 0 then max (bound + n) lower else min bound upper

/-- `range(n)[index]` in Python. -/
def pythonSlice (n : ℤ) (index : Slice) : List ℤ :=
  let step := index.step.getD 1
  let lower := if step < 0 then -1 else 0
  let upper := if step < 0 then n - 1 else n
  pythonRange ((index.start.map (pythonBound n lower upper)).getD (if step < 0 then upper else lower))
    ((index.stop.map (pythonBound n lower upper)).getD (if step < 0 then lower else upper)) step

variable {start stop step : ℤ}

theorem pythonCount_eq_zero (hstep : step ≠ 0) (h : if step > 0 then stop ≤ start else start ≤ stop) :
    pythonCount start stop step = 0 := by
  rw [pythonCount, Int.toNat_eq_zero, ceildiv_le_iff (abs_pos.mpr hstep), zero_mul]
  split_ifs at h ⊢ <;> omega

theorem rangeCount_eq (hstep : step ≠ 0) : (rangeCount start stop step).toNat = pythonCount start stop step := by
  rw [rangeCount]
  split_ifs with hempty
  · refine (pythonCount_eq_zero hstep ?_).symm
    split_ifs <;> omega
  · rw [pythonCount]
    congr 2
    split_ifs
    · rw [abs_of_nonpos (by omega), neg_sub]
    · rw [abs_of_nonneg (by omega)]

theorem outputShape_eq (hstep : step ≠ 0) :
    max 0 ((stop - start + (step - if step > 0 then 1 else -1)).fdiv step) = pythonCount start stop step := by
  have hdiv : ∀ {a b : ℤ}, 0 < b → (a + (b - 1)).fdiv b = ceildiv a b := by
    intro a b hb
    refine eq_of_forall_ge_iff fun k => ?_
    rw [ceildiv_le_iff hb, Int.fdiv_eq_ediv_of_nonneg _ hb.le, ← Int.lt_add_one_iff,
      Int.ediv_lt_iff_lt_mul hb, add_one_mul]
    omega
  rw [pythonCount, Int.toNat_eq_max, max_comm]
  congr 1
  split_ifs with hpos
  · rw [abs_of_pos hpos, hdiv hpos]
  · rw [abs_of_neg (by omega), ← hdiv (by omega), ← Int.neg_fdiv_neg]
    congr 1
    ring

variable {n : ℤ} {index : Slice} {c : ConcreteSlice}

theorem concreteStaticSlice_ok (h : concreteStaticSlice n index = .ok c) : c.step ≠ 0 ∧ 0 ≤ c.start ∧ c.start < n ∧
    (if index.stop = none then c.stop = if c.step < 0 then -1 else n else 0 ≤ c.stop ∧ c.stop ≤ n) ∧
    pythonSlice n index = pythonRange c.start
      (if c.step < 0 then if index.stop = none then -1 else min c.stop (n - 1) else c.stop) c.step := by
  obtain ⟨start, stop, step⟩ := index
  simp only [concreteStaticSlice, pythonSlice, bind_eq_ok, raiseIf_eq_ok, not_not] at h ⊢
  generalize step.getD 1 = step at h ⊢
  obtain ⟨-, hstep, -, hstart, -, hstop, h⟩ := h
  cases h
  rcases start with _ | start <;> rcases stop with _ | stop <;>
    simp only [Option.getD_none, Option.getD_some, Option.map_none, Option.map_some, pythonBound, ne_eq, not_true,
      reduceCtorEq, and_false, not_false_eq_true, and_true, if_true, if_false] at hstart hstop ⊢ <;>
    refine ⟨hstep, by split_ifs <;> omega, by split_ifs <;> omega, by split_ifs <;> omega, ?_⟩ <;>
    congr 1 <;> split_ifs <;> omega

theorem viewPositions_eq (hstep : c.step ≠ 0) (hstart : 0 ≤ c.start ∧ c.start < n) :
    viewPositions n c = pythonRange c.start (normalizeAndClampDim c.stop c.step n) c.step := by
  have hnorm : normalizeAndClampDim c.start c.step n = c.start := by
    rw [normalizeAndClampDim]
    split_ifs <;> omega
  rw [viewPositions, hnorm, rangeCount_eq hstep, pythonRange]

/-- **Slices of a static dimension**: the kernel reads what Python selects, as many positions as the output has, exactly
    when the step is not negative or there is a stop. -/
theorem staticSlice_selects_iff (n : ℤ) (hn : 1 ≤ n) (index : Slice) (c : ConcreteSlice) (size : ℤ)
    (h : staticSlice n index = .ok (c, size)) :
    (viewPositions n c = pythonSlice n index ∧ size = (viewPositions n c).length) ↔ ¬(c.step < 0 ∧ index.stop = none) := by
  obtain ⟨c, hc, heq⟩ := bind_eq_ok.mp h
  cases heq
  obtain ⟨hstep, hstart, hlt, hstop, hslice⟩ := concreteStaticSlice_ok hc
  rw [hslice, viewPositions_eq hstep ⟨hstart, hlt⟩, outputShape_eq hstep, normalizeAndClampDim]
  constructor
  · rintro ⟨hsame, -⟩ ⟨hneg, hnone⟩
    -- the sentinel stop -1 is normalised to the last position, and nothing is read
    rw [if_pos hnone, if_pos hneg] at hstop
    have hlen := congrArg length hsame
    simp only [hneg, hnone, hstop, if_true, pythonRange, length_map, length_range] at hlen
    rw [pythonCount_eq_zero hstep (by split_ifs <;> omega), eq_comm, pythonCount, Int.toNat_eq_zero,
      ceildiv_le_iff (abs_pos.mpr hstep)] at hlen
    split_ifs at hlen <;> omega
  · intro hok
    have hin : 0 ≤ c.stop ∧ c.stop ≤ n := by
      split_ifs at hstop with hnone hneg
      · exact absurd ⟨hneg, hnone⟩ hok
      · omega
      · exact hstop
    have hbound : max (if c.step > 0 then 0 else -1) (min (if c.stop < 0 then c.stop + n else c.stop)
        (if c.step > 0 then n else n - 1)) = if c.step < 0 then min c.stop (n - 1) else c.stop := by
      split_ifs <;> omega
    have hlast : pythonCount c.start (if c.step < 0 then min c.stop (n - 1) else c.stop) c.step =
        pythonCount c.start c.stop c.step := by
      split_ifs with hneg
      · rcases le_or_gt c.stop (n - 1) with hle | hgt
        · rw [min_eq_left hle]
        · rw [min_eq_right hgt.le, pythonCount_eq_zero hstep, pythonCount_eq_zero hstep] <;> split_ifs <;> omega
      · rfl
    rw [hbound]
    refine ⟨?_, by rw [pythonRange, length_map, length_range, hlast]⟩
    split_ifs with hneg hnone
    · exact absurd ⟨hneg, hnone⟩ hok
    · rfl
    · rfl

theorem staticSlice_selects_reversed : viewPositions 3 ⟨2, 0, -1⟩ = pythonSlice 3 ⟨none, some 0, some (-1)⟩ ∧
    (2 : ℤ) = (viewPositions 3 ⟨2, 0, -1⟩).length :=
  (staticSlice_selects_iff 3 (by decide) ⟨none, some 0, some (-1)⟩ ⟨2, 0, -1⟩ 2 rfl).mpr (by decide)

/-- `x[::-1]`: the kernel reads nothing. -/
theorem reversed_reads_nothing : staticSlice 3 ⟨none, none, some (-1)⟩ = .ok (⟨2, -1, -1⟩, 3) ∧
    viewPositions 3 ⟨2, -1, -1⟩ = [] ∧ pythonSlice 3 ⟨none, none, some (-1)⟩ = [2, 1, 0] := by
  refine ⟨rfl, by decide, by decide⟩

end MojoProse.Graph
