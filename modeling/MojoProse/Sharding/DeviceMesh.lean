import MojoProse.Schemes.RowMajor
import MojoProse.Schemes.Tensor

/-! Device meshes, and what a mesh axis does to a tensor. -/

namespace MojoProse.Sharding

open Schemes

/-- A physical device, by its number. -/
abbrev Device := ℕ

/-- An N-dimensional logical grid of devices, in row-major order. -/
structure DeviceMesh where
  devices : List Device
  meshShape : List ℕ
  axisNames : List String
  devices_ne_nil : devices ≠ []
  devices_length : devices.length = meshShape.prod
  axisNames_length : axisNames.length = meshShape.length
  axisNames_nodup : axisNames.Nodup
  /-- Either every slot is the same device (simulated) or all are distinct. -/
  devices_uniform : (∀ x ∈ devices, ∀ y ∈ devices, x = y) ∨ devices.Nodup
  deriving DecidableEq

namespace DeviceMesh

variable (mesh : DeviceMesh)

def ndim : ℕ := mesh.meshShape.length

def numDevices : ℕ := mesh.devices.length

def axisSize (axis : ℕ) : ℕ := mesh.meshShape.getD axis 1

theorem numDevices_eq : mesh.numDevices = mesh.meshShape.prod := mesh.devices_length

theorem numDevices_pos : 0 < mesh.numDevices := List.length_pos_iff.mpr mesh.devices_ne_nil

theorem meshShape_pos : ∀ n ∈ mesh.meshShape, 0 < n := by
  intro n hn
  refine Nat.pos_of_ne_zero ?_
  rintro rfl
  have hzero : mesh.meshShape.prod = 0 := List.prod_eq_zero hn
  have hpos := mesh.numDevices_pos
  rw [numDevices_eq, hzero] at hpos
  exact hpos.false

theorem axisSize_pos (axis : ℕ) : 0 < mesh.axisSize axis := by
  rcases Nat.lt_or_ge axis mesh.meshShape.length with h | h
  · rw [axisSize, List.getD_eq_getElem _ _ h]
    exact mesh.meshShape_pos _ (List.getElem_mem h)
  · rw [axisSize, List.getD_eq_default _ _ h]
    exact Nat.one_pos

end DeviceMesh

inductive ReduceOp where
  | sum | avg | min | max
  deriving DecidableEq, Repr

/-- What one mesh axis does: a full copy on each device, a slice along `axis`, or a contribution to reduce (the class
    `Partial`). -/
inductive Placement where
  | replicated
  | sharded (axis : ℤ)
  | partialOf (reduceOp : ReduceOp)
  deriving DecidableEq, Repr

/-- The tensor axis this placement localizes, if it does. -/
def Placement.localizedAxis : Placement → Option ℤ
  | .sharded axis => some axis
  | _ => none

/-- The placement of a mesh axis. -/
def placementOn (placements : List Placement) (meshAxis : ℕ) : Placement := placements.getD meshAxis .replicated

/-- How a tensor is distributed across a device mesh: one placement per mesh axis. -/
structure DeviceMapping where
  mesh : DeviceMesh
  placements : List Placement
  placements_length : placements.length = mesh.ndim
  deriving DecidableEq

inductive Fault where
  /-- `ShardingError`: a placement would split a tensor axis of extent 1. -/
  | sizeOneAxis (p : Placement) (meshAxisName : String) (axis : ℤ)
  /-- `ValueError`: a placement that `_scatter` cannot produce. -/
  | cannotScatter (p : Placement)
  /-- `ValueError`: not one placement per mesh axis. -/
  | placementCount (meshAxes placements : ℕ)
  /-- `ValueError`: a placement localizes an axis the shape does not have. -/
  | placementAxis (p : Placement) (rank : ℕ)
  /-- `ValueError`: a per-shard dim without cells. -/
  | emptyPerShard
  /-- `IndexError`: an axis the tensor does not have. -/
  | axisOutOfRange (axis : ℤ) (rank : ℕ)
  /-- `ValueError`: the split sizes do not add up to the extent. -/
  | splitSizes (extent : ℕ) (sizes : List ℕ)
  /-- `ValueError`: `concat` without inputs, or with inputs that differ off the axis. -/
  | concatShapes (shapes : List (List ℕ))
  /-- `ValueError`: an elementwise operation on different shapes. -/
  | shapesDiffer (x y : List ℕ)
  /-- `NotImplementedError`: a redistribution that is not supported. -/
  | noTransition (source target : Placement)
  /-- `RuntimeError` of the picker: no action is left. -/
  | noAction
  deriving DecidableEq, Repr

end MojoProse.Sharding
