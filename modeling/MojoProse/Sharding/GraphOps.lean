import MojoProse.Schemes.Guard
import MojoProse.Sharding.DeviceMesh

/-! The graph operations that the distributed ones are built from, on tensors of static shape. -/

namespace MojoProse.Sharding

open Schemes Tensor

variable {R : Type*} {a : ℕ} {axis : ℤ}

/-- An axis as Python counts it: a negative one from the end. -/
def axisIndex (rank : ℕ) (axis : ℤ) : Option ℕ :=
  if 0 ≤ axis ∧ axis < rank then some axis.toNat
  else if -rank ≤ axis ∧ axis < 0 then some (axis + rank).toNat
  else none

theorem axisIndex_natCast {rank : ℕ} (ha : a < rank) : axisIndex rank a = some a := by
  rw [axisIndex, if_pos ⟨by omega, by omega⟩, Int.toNat_natCast]

theorem axisIndex_lt {rank : ℕ} (h : axisIndex rank axis = some a) : a < rank := by
  rw [axisIndex] at h
  split at h
  · obtain rfl := Option.some.inj h
    omega
  · split at h
    · obtain rfl := Option.some.inj h
      omega
    · simp at h

def split (x : Tensor R) (splitSizes : List ℕ) (axis : ℤ) : Except Fault (List (Tensor R)) :=
  if splitSizes = [] then .ok []
  else
    match axisIndex x.rank axis with
    | none => .error (.axisOutOfRange axis x.rank)
    | some a =>
      if splitSizes.sum = x.extent a then .ok (x.pieces a 0 splitSizes)
      else .error (.splitSizes (x.extent a) splitSizes)

theorem split_ok {x : Tensor R} {sizes : List ℕ} (hne : sizes ≠ [])
    (haxis : axisIndex x.rank axis = some a) (hsum : sizes.sum = x.extent a) :
    split x sizes axis = .ok (x.pieces a 0 sizes) := by
  rw [split, if_neg hne, haxis]
  exact if_pos hsum

def concat (originalVals : List (Tensor R)) (axis : ℤ) : Except Fault (Tensor R) :=
  if originalVals.isEmpty || originalVals.any (fun v => v.rank ≠ (headShape originalVals).length) then
    .error (.concatShapes (originalVals.map shape))
  else
    match axisIndex (headShape originalVals).length axis with
    | none => .error (.axisOutOfRange axis (headShape originalVals).length)
    | some a =>
      match Tensor.concat a originalVals with
      | none => .error (.concatShapes (originalVals.map Tensor.shape))
      | some t => .ok t

theorem concat_ok {vals : List (Tensor R)} {t : Tensor R}
    (haxis : axisIndex (Tensor.headShape vals).length axis = some a) (ht : Tensor.concat a vals = some t) :
    concat vals axis = .ok t := by
  have hjoinable : Tensor.Joinable a vals := by
    by_contra hnot
    simp [Tensor.concat, hnot] at ht
  have hne : vals.isEmpty = false := by
    cases vals with
    | nil => exact absurd hjoinable.1 (Nat.not_lt_zero a)
    | cons v vals => rfl
  have hranks : vals.any (fun v => v.rank ≠ (headShape vals).length) = false := by
    simp only [List.any_eq_false, decide_eq_true_eq, not_not]
    intro v hv
    have hset := congrArg List.length (hjoinable.2 v hv)
    rw [List.length_set, List.length_set] at hset
    exact hset
  rw [concat, hne, hranks, haxis]
  simp [ht]

def add [Add R] (lhs rhs : Tensor R) : Except Fault (Tensor R) :=
  if h : lhs.shape = rhs.shape then .ok ⟨lhs.shape, fun i hi => lhs.entry i hi + rhs.entry i (h ▸ hi)⟩
  else .error (.shapesDiffer lhs.shape rhs.shape)

/-- `functools.reduce(ops.add, vals)`. -/
def addAll [Add R] : List (Tensor R) → Except Fault (Tensor R)
  | [] => .error (.shapesDiffer [] [])
  | t :: ts => ts.foldlM add t

end MojoProse.Sharding
