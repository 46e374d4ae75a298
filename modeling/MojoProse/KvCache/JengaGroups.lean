import MojoProse.KvCache.JengaAdmission
import MojoProse.KvCache.PrefixHit
import MojoProse.Schemes.Effect

/-! The group coordinators (`kv_group_coordinator.py`) of full and sliding-window leaves: what they do
    to the row of one request and to the pool of its replica.

    A row is the list of the bids a leaf holds for a request; 0 is the null block. An exception leaves
    the row and the pool as they are at that point. -/

namespace MojoProse.KvCache
open Schemes

/-- `refused` is the `InsufficientBlocksError` of the admission test, `noState` that of a leaf with one block per
    request. -/
inductive KvError (C R : Type) where
  | pool (e : PoolError C)
  | refused (demand : List (C × ℕ))
  | noState (what : String) (r : R)
  | unclaimed (r : R)
  | alreadyClaimed (r : R) (replicaIdx : ℕ)
  | keyError
  | indexError
  | assertion (message : String)
  | valueError (message : String)
  | notImplemented
  deriving DecidableEq, Repr

/-- `InsufficientBlocksError`. -/
def KvError.isInsufficient {C R : Type} : KvError C R → Bool
  | .pool (.insufficientBlocks _) => true
  | .refused _ => true
  | .noState _ _ => true
  | _ => false

/-- Any other exception, whatever it leaves. -/
abbrev KvError.Other {C R σ : Type} (e : KvError C R) (_ : σ) : Prop := e.isInsufficient = false

def KvError.message {C R : Type} [ToString C] [ToString R] : KvError C R → String
  | .pool e => e.message
  | .refused demand => s!"Serving {demand} needs more huge blocks than are available"
  | .noState what r => s!"No blocks left for the {what} of {r}"
  | .unclaimed r => s!"Request is not claimed, so it holds no pages to work with: {r}"
  | .alreadyClaimed r replica => s!"Request is already claimed, on replica {replica}: {r}"
  | .keyError => ""
  | .indexError => "list index out of range"
  | .assertion m => m
  | .valueError m => m
  | .notImplemented => "Subclasses must implement this method."

/-- The leaves whose entries are pages of tokens. -/
inductive AttentionGroup where
  | full
  | slidingWindow (windowSize : ℕ) (one_lt : 1 < windowSize)

def AttentionGroup.groupId : AttentionGroup → KVCacheGroupId
  | .full => .full
  | .slidingWindow w h => .slidingWindow w h

/-- The window in whole blocks, for a leaf that has one. -/
def AttentionGroup.window (pageSize : ℕ) : AttentionGroup → Option ℕ
  | .full => none
  | .slidingWindow w _ => some (blocksInWindow w pageSize)

/-- The row of one request in one leaf, with the pool it draws from. -/
structure RowState (C H : Type) where
  pool : JengaBlockPool C H
  row : List ℕ

namespace KVGroup
variable {C H R : Type} [DecidableEq C] [DecidableEq H] (g : Geometry C) (c : C)

/-- Pool effects raise the pool's exceptions. -/
abbrev PoolEff (C H R α : Type) := EStateM (KvError C R) (JengaBlockPool C H) α

abbrev RowEff (C H R α : Type) := EStateM (KvError C R) (RowState C H) α

def callPool {α : Type} (f : JengaBlockPool C H → Except (PoolError C) (α × JengaBlockPool C H)) :
    PoolEff C H R α := fun p =>
  match f p with
  | .ok (a, p') => .ok a p'
  | .error e => .error (.pool e) p

def onPool {α : Type} (m : PoolEff C H R α) : RowEff C H R α :=
  zoom RowState.pool (fun s p => { s with pool := p }) m

def alloc : PoolEff C H R ℕ := callPool fun p => p.allocBlock g c

def free (bid : ℕ) : PoolEff C H R Unit := callPool fun p => (((), ·)) <$> p.freeBlock g c bid

def touch (bid : ℕ) : PoolEff C H R Unit := callPool fun p => (((), ·)) <$> p.touch g c bid

def getOrCommit (h : H) (bid : ℕ) : PoolEff C H R (Option ℕ) :=
  callPool fun p => p.getOrCommitIntoPrefixCache g h c bid

def commitBlock (h : H) (bid : ℕ) : PoolEff C H R Unit :=
  callPool fun p => (((), ·)) <$> p.commitIntoPrefixCache h c bid

/-- `prefix_caches[leaf_id][block_hash]`, a `KeyError` when it is not there; then `touch`. -/
def touchHash (h : H) : PoolEff C H R ℕ := do
  match ((← get).prefixCaches c).get? h with
  | none => throw .keyError
  | some bid =>
    touch g c bid
    return bid

/-- `block_hash in prefix_caches[leaf_id]`. -/
def holds (p : JengaBlockPool C H) (h : H) : Bool := ((p.prefixCaches c).get? h).isSome

variable (pageSize : ℕ) (group : AttentionGroup)

def claimHitBlocks (desired : List H) : PoolEff C H R (List ℕ) := do
  match group.window pageSize with
  | none => desired.mapM (touchHash g c)
  | some w =>
    let p ← get
    let low := desired.length - w
    let low := if (desired.drop low).all (holds c p) then low else desired.length
    let blocks ← (desired.drop low).mapM (touchHash g c)
    return List.replicate low 0 ++ blocks

def claimableHashes (desired : List H) : List H :=
  match group.window pageSize with
  | none => desired
  | some w => desired.drop (desired.length - w)

def blocksHeldOfConnectorHit (numHitBlocks : ℕ) : ℕ :=
  blocksHeldOfHit numHitBlocks (group.window pageSize)

/-- `extend`: a sliding-window leaf drops the device blocks when the loaded run starts with a null. -/
def extend (hit loaded : List ℕ) : RowEff C H R Unit := do
  let hit ← if (group.window pageSize).isSome ∧ loaded.head? = some 0 then do
      onPool (hit.forM (free g c))
      pure (List.replicate hit.length 0)
    else pure hit
  modify fun s => { s with row := s.row ++ (hit ++ loaded) }

/-- `pool.free_block(req_blocks.pop())`, `n` times. -/
def popBlocks : ℕ → RowEff C H R Unit
  | 0 => return
  | n + 1 => do
    match (← get).row.getLast? with
    | none => throw .indexError
    | some bid =>
      modify fun s => { s with row := s.row.dropLast }
      onPool (free g c bid)
      popBlocks n

def shrinkToFit (numCommittedBlocks : ℕ) : RowEff C H R Unit := do
  let s ← get
  if s.row.length < numCommittedBlocks then throw (.assertion "")
  popBlocks g c (s.row.length - numCommittedBlocks)

def numBlocksToAllocate (row : List ℕ) (numRequiredBlocks : ℕ) : ℕ := numRequiredBlocks - row.length

/-- `req_blocks.append(pool.alloc_block(leaf_id))`, `n` times. -/
def appendBlocks : ℕ → RowEff C H R Unit
  | 0 => return
  | n + 1 => do
    let bid ← onPool (alloc g c)
    modify fun s => { s with row := s.row ++ [bid] }
    appendBlocks n

def grow (numRequiredBlocks : ℕ) : RowEff C H R Unit := do
  appendBlocks g c (numBlocksToAllocate (← get).row numRequiredBlocks)

/-- One turn of the loop of `commit`. -/
def commitAt (hashes : List H) (idx : ℕ) : RowEff C H R Unit := do
  let s ← get
  match s.row[idx]? with
  | none => throw .indexError
  | some bid =>
    if bid = 0 ∨ s.pool.blockHash c bid ≠ none then return
    match hashes[idx]? with
    | none => throw .indexError
    | some h =>
      match ← onPool (getOrCommit g c h bid) with
      | none => return
      | some twin => modify fun s => { s with row := s.row.set idx twin }

def commit (hashes : List H) (lastBlock : ℕ) : RowEff C H R Unit := do
  (List.range (min lastBlock (← get).row.length)).forM (commitAt g c hashes)

/-- The loop of `advance`: from `n - 1` down to the first null block. -/
def nullBelow : ℕ → RowEff C H R Unit
  | 0 => return
  | n + 1 => do
    match (← get).row[n]? with
    | none => throw .indexError
    | some bid =>
      if bid = 0 then return
      onPool (free g c bid)
      modify fun s => { s with row := s.row.set n 0 }
      nullBelow n

def advance (pageSize : ℕ) (group : AttentionGroup) (numCommittedBlocks : ℕ) : RowEff C H R Unit :=
  match group.window pageSize with
  | none => return
  | some w => nullBelow g c (numCommittedBlocks - w)

/-- `release`: the row goes, its tail is freed before its head. -/
def release : RowEff C H R Unit := do
  let s ← get
  modify fun s => { s with row := [] }
  onPool (s.row.reverse.forM (free g c))

end KVGroup

end MojoProse.KvCache
