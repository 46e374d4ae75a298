import MojoProse.KvCache.JengaGroups

/-! The group coordinators of leaves that keep one block per request (`recurrent_coordinator.py`,
    `scratch_coordinator.py`).

    The last block of a recurrent row is the one the recurrence runs in. It carries no hash; the blocks
    behind it are null or published checkpoints. A scratch row is one block, never published. -/

namespace MojoProse.KvCache
open Schemes

inductive StateGroup where
  | recurrent
  | scratch
  deriving DecidableEq

def StateGroup.groupId : StateGroup → KVCacheGroupId
  | .recurrent => .recurrent
  | .scratch => .scratch

namespace KVState
open KVGroup
variable {C H R : Type} [DecidableEq C] [DecidableEq H] (g : Geometry C) (c : C)

/-- `_live`: the block the recurrence runs in. -/
def live (p : JengaBlockPool C H) (row : List ℕ) : Option ℕ :=
  row.getLast?.filter fun bid => (p.blockHash c bid).isNone

/-- `claim_hit_blocks`: the state at the end of the hit, when it is published. -/
def claimHitBlocks (desired : List H) : StateGroup → PoolEff C H R (List ℕ)
  | .scratch => return []
  | .recurrent => do
    match desired.getLast? with
    | none => return []
    | some h =>
      if holds c (← get) h then
        let bid ← touchHash g c h
        return List.replicate (desired.length - 1) 0 ++ [bid]
      else return []

/-- `claimable_hashes`, which a recurrent leaf does not have. -/
def claimableHashes : StateGroup → Option (List H)
  | .scratch => some []
  | .recurrent => none

/-- `_num_blocks_to_allocate`: one until the row has its block. -/
def numBlocksToAllocate (p : JengaBlockPool C H) (row : List ℕ) : StateGroup → ℕ
  | .scratch => if row = [] then 1 else 0
  | .recurrent => if (live c p row).isSome then 0 else 1

/-- The block of `grow`, whose exception names the request. -/
def draw (what : String) (r : R) : PoolEff C H R ℕ := fun p =>
  match p.allocBlock g c with
  | .ok (bid, p') => .ok bid p'
  | .error (.insufficientBlocks _) => .error (.noState what r) p
  | .error e => .error (.pool e) p

def padTo (n : ℕ) (row : List ℕ) : List ℕ := row ++ List.replicate (n - row.length) 0

def grow (r : R) (numRequiredBlocks : ℕ) : StateGroup → RowEff C H R Unit
  | .scratch => do
    let s ← get
    if numBlocksToAllocate c s.pool s.row .scratch ≠ 0 then
      let bid ← onPool (draw g c "live scratch" r)
      modify fun s => { s with row := s.row ++ [bid] }
  | .recurrent => do
    let s ← get
    if numBlocksToAllocate c s.pool s.row .recurrent ≠ 0 then
      let bid ← onPool (draw g c "recurrent state" r)
      modify fun s => { s with row := padTo (numRequiredBlocks - 1) s.row ++ [bid] }
    else
      match s.row.getLast? with
      | none => throw .indexError
      | some bid =>
        modify fun s => { s with row := padTo (numRequiredBlocks - 1) s.row.dropLast ++ [bid] }

/-- `shrink_to_fit`: only the live block stays. -/
def shrinkToFit (numCommittedBlocks : ℕ) : StateGroup → RowEff C H R Unit
  | .scratch => return
  | .recurrent => do
    let s ← get
    let live := live c s.pool s.row
    let behind := if live.isSome then s.row.dropLast else s.row
    modify fun s => { s with row := behind }
    onPool (behind.reverse.forM (free g c))
    modify fun s => { s with
      row := match live with
        | none => []
        | some bid => padTo (numCommittedBlocks - 1) [] ++ [bid] }

/-- One turn of the loop of `advance`. -/
def advanceAt (live : Option ℕ) (idx : ℕ) : RowEff C H R Unit := do
  let s ← get
  match s.row[idx]? with
  | none => throw .indexError
  | some bid =>
    if live = some bid ∨ bid = 0 then return
    if (s.pool.blockHash c bid).isNone then return
    onPool (free g c bid)
    modify fun s => { s with row := s.row.set idx 0 }

def advance : StateGroup → RowEff C H R Unit
  | .scratch => return
  | .recurrent => do
    let s ← get
    (List.range s.row.length).forM (advanceAt g c (live c s.pool s.row))

/-- A block behind the live one that is not published. -/
def unpublishedBehind (p : JengaBlockPool C H) (row : List ℕ) : Bool :=
  row.dropLast.any fun bid => bid ≠ 0 && (p.blockHash c bid).isNone

/-- There is a live block, the forward ended on a block boundary, and no checkpoint is still to be published. -/
def drawsSuccessor (pageSize processedLength : ℕ) (p : JengaBlockPool C H) (row : List ℕ) : Bool :=
  row.getLast? ≠ some 0 && (live c p row).isSome &&
    (processedLength / pageSize ≠ 0 && processedLength % pageSize = 0) && !unpublishedBehind c p row

/-- The block that ran moves to the slot its hash indexes, the successor takes its place. -/
def succeed (numCommittedBlocks bid : ℕ) (row : List ℕ) : List ℕ :=
  let row := row.dropLast ++ List.replicate (numCommittedBlocks + 1 - row.length) 0 ++
    row.getLast?.toList
  (row.set (numCommittedBlocks - 1) (row.getLastD 0)).set (row.length - 1) bid

/-- `checkpoint`; the block to copy and the block to fill. -/
def checkpoint (pageSize processedLength : ℕ) : StateGroup → RowEff C H R (Option (ℕ × ℕ))
  | .scratch => return none
  | .recurrent => do
    let s ← get
    if drawsSuccessor c pageSize processedLength s.pool s.row then
      let bid ← onPool (alloc g c)
      modify fun s => { s with row := succeed (processedLength / pageSize) bid s.row }
      return (live c s.pool s.row).map fun ranIn => (ranIn, bid)
    else return none

/-- One turn of the loop of `commit`: the live block is still being written. -/
def commitAt (hashes : List H) (idx : ℕ) : RowEff C H R Unit := do
  let s ← get
  match s.row[idx]? with
  | none => throw .indexError
  | some bid => if live c s.pool s.row = some bid then return else KVGroup.commitAt g c hashes idx

def commit (hashes : List H) (lastBlock : ℕ) : StateGroup → RowEff C H R Unit
  | .scratch => return
  | .recurrent => do
    (List.range (min lastBlock (← get).row.length)).forM (commitAt g c hashes)

end KVState

end MojoProse.KvCache
