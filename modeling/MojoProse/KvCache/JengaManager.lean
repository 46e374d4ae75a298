import MojoProse.KvCache.JengaGroups
import MojoProse.Pipelines.TokenBuffer

/-! `JengaBlockManager` (`jenga_block_manager.py`) over full and sliding-window leaves.

    The connector and the request contexts are the environment's: each call gets what the connector
    answers during it, and between calls a context changes by forwards. Device buffers, metrics and
    the connector's recency hints are not part of the state. -/

namespace MojoProse.KvCache
open Schemes Support Pipelines Function

structure TextContext where
  tokens : TokenBuffer
  maybeAcceptedDraftTokens : ℕ

/-- The manager's construction. The leaves are the cache ids of the pool. -/
structure ManagerConfig (C H : Type) where
  geometry : Geometry C
  leaves : List C
  leaves_nodup : leaves.Nodup
  mem_leaves : ∀ c, c ∈ leaves
  group : C → AttentionGroup
  blockSize : ℕ
  blockSize_pos : 0 < blockSize
  numReplicas : ℕ
  enablePrefixCaching : Bool
  onlyUseConnectorLastLevelCache : Bool
  crossReplicaCopyEnabled : Bool
  hasConnector : Bool
  maxNumInputTokens : Option ℕ
  numDraftTokens : ℕ
  numDraftTokensPerStep : ℕ
  computeBlockHashes : TextContext → List H → Except String (List H)

def computeSeqLen (numDraftTokens numDraftTokensPerStep : ℕ) (maxNumInputTokens : Option ℕ) (ctx : TextContext) : ℤ :=
  let blockDraftExtra : ℤ :=
    if numDraftTokens > 0 ∧ numDraftTokensPerStep = numDraftTokens then 1 else 0
  let activeLength := match maxNumInputTokens with
    | none => ctx.tokens.activeLength
    | some n => min ctx.tokens.activeLength n
  ctx.tokens.processedLength + activeLength +
    (ctx.maybeAcceptedDraftTokens + 2 * numDraftTokens + 1 + blockDraftExtra - 1)

/-- What the connector answers to one `load`. -/
inductive LoadAnswer where
  | refused
  | complete
  | pending
  deriving DecidableEq

/-- The environment of one call: the transfers that have landed, the connector's residency masks and its answer to a
    load. -/
structure CallEnv (C H : Type) where
  landed : ℕ → ℕ → Bool
  lookup : C → List H → List Bool
  lookup_length : ∀ c desired, (lookup c desired).length = desired.length
  load : LoadAnswer

structure RequestCacheState (H : Type) where
  replicaIdx : ℕ
  hashes : List H
  committedIdx : ℕ
  deriving DecidableEq

/-- `_PendingTransfer`: the blocks it pins, and the hashes to publish when it is an onload. -/
structure PendingTransfer (C H : Type) where
  blocks : C → List ℕ
  commitHashes : Option (List H)

/-- The rows of one request in every leaf, with the pool of its replica. -/
structure TreeState (C H : Type) where
  pool : JengaBlockPool C H
  rows : C → List ℕ

structure JengaBlockManager (C H R : Type) where
  pools : ℕ → JengaBlockPool C H
  rows : C → R → List ℕ
  requests : R → Option (RequestCacheState H)
  contexts : R → TextContext
  pendingTransfers : ℕ → List (PendingTransfer C H)
  pendingOffloads : ℕ → List (List H)

abbrev TreeEff (C H R α : Type) := EStateM (KvError C R) (TreeState C H) α

abbrev ManagerEff (C H R α : Type) := EStateM (KvError C R) (JengaBlockManager C H R) α

open KVGroup

namespace KVTree
variable {C H R : Type} [DecidableEq C] [DecidableEq H] (cfg : ManagerConfig C H)

def freeBlocks (blocks : C → List ℕ) : PoolEff C H R Unit :=
  cfg.leaves.forM fun c => (blocks c).forM (free cfg.geometry c)

def touchBlocks (blocks : C → List ℕ) : PoolEff C H R Unit :=
  cfg.leaves.forM fun c => (blocks c).forM (touch cfg.geometry c)

/-- `residency`; `peers` says what the other replicas hold, when they may be copied from. -/
def residency (p : JengaBlockPool C H) (peers : C → H → Bool) (c : C) (desired : List H) : List Bool :=
  desired.map fun h => holds c p h || peers c h

def jointHit (masks : C → List Bool) : PoolEff C H R ℕ :=
  match longestJointPrefixHit (cfg.leaves.map fun c => ((cfg.group c).groupId, masks c))
      cfg.blockSize with
  | .ok n => return n
  | .error m => throw (.valueError m)

def findLongestDevicePrefixCacheHit (peers : C → H → Bool) (desired : List H) : PoolEff C H R ℕ := do
  let p ← get
  jointHit cfg fun c => residency p peers c desired

/-- `alloc_block`, with the `except InsufficientBlocksError` of the copy loop. -/
def tryAlloc (c : C) : PoolEff C H R (Option ℕ) := fun p =>
  match p.allocBlock cfg.geometry c with
  | .ok (bid, p') => .ok (some bid) p'
  | .error (.insufficientBlocks _) => .ok none p
  | .error e => .error (.pool e) p

/-- The pages one group of `_copy_prefix_from_peers` takes: those it holds until the end, and those it publishes. -/
def copyGroup (peers : C → H → Bool) (c : C) :
    List H → List (C × ℕ) × List (H × C × ℕ) → PoolEff C H R (List (C × ℕ) × List (H × C × ℕ))
  | [], acc => return acc
  | h :: hs, (held, staged) => do
    let p ← get
    match (p.prefixCaches c).get? h with
    | some bid =>
      touch cfg.geometry c bid
      copyGroup peers c hs (held ++ [(c, bid)], staged)
    | none =>
      if peers c h then
        match ← tryAlloc cfg c with
        | some dst => copyGroup peers c hs (held ++ [(c, dst)], staged ++ [(h, c, dst)])
        | none => return (held, staged)
      else return (held, staged)

/-- `_copy_prefix_from_peers`: the pages taken are given back also when a commit raises. -/
def copyPrefixFromPeers (peers : C → H → Bool) (hitHashes : List H) : PoolEff C H R Unit := do
  let (held, staged) ← cfg.leaves.foldlM (fun acc c =>
    copyGroup cfg peers c (claimableHashes cfg.blockSize (cfg.group c) hitHashes) acc) ([], [])
  try
    staged.forM fun e => commitBlock e.2.1 e.1 e.2.2
  finally
    held.forM fun e => free cfg.geometry e.1 e.2

/-- `claim_hit_blocks` of every group. -/
def claimAllHitBlocks (hitHashes : List H) : PoolEff C H R (C → List ℕ) :=
  cfg.leaves.foldlM (fun rows c => do
    let row ← claimHitBlocks cfg.geometry c cfg.blockSize (cfg.group c) hitHashes
    return update rows c row) fun _ => []

def lookupDevicePrefixCacheHit (peers : C → H → Bool) (desired : List H) : PoolEff C H R ((C → List ℕ) × ℕ) := do
  if cfg.onlyUseConnectorLastLevelCache then return (fun _ => [], 0)
  let numHitBlocks ← do
    if cfg.crossReplicaCopyEnabled then
      let n ← findLongestDevicePrefixCacheHit cfg peers desired
      copyPrefixFromPeers cfg peers (desired.take n)
      findLongestDevicePrefixCacheHit cfg (fun _ _ => false) desired
    else findLongestDevicePrefixCacheHit cfg (fun _ _ => false) desired
  let hitBlocks ← claimAllHitBlocks cfg (desired.take numHitBlocks)
  return (hitBlocks, numHitBlocks)

/-- `[pool.alloc_block(leaf_id) for _ in range(num_blocks)]`. -/
def allocRow (c : C) : ℕ → PoolEff C H R (List ℕ)
  | 0 => return []
  | n + 1 => do
    let bid ← alloc cfg.geometry c
    let row ← allocRow c n
    return bid :: row

def allocRows (demand : List (C × ℕ)) : PoolEff C H R (C → List ℕ) :=
  demand.foldlM (fun rows e => do
    let row ← allocRow cfg e.1 e.2
    return update rows e.1 row) fun _ => []

/-- One leaf of `_commit_onloaded_blocks`; the two sequences are zipped strictly. -/
def commitOnloadedRow (c : C) : List ℕ → List H → PoolEff C H R Unit
  | bid :: bids, h :: hs => do
    let p ← get
    if p.blockHash c bid = none ∧ holds c p h = false ∧ bid ≠ 0 then
      commitBlock c h bid
    commitOnloadedRow c bids hs
  | [], [] => return
  | [], _ :: _ => throw (.valueError "zip() argument 2 is longer than argument 1")
  | _ :: _, [] => throw (.valueError "zip() argument 2 is shorter than argument 1")

def commitOnloadedBlocks (blocks : C → List ℕ) (hashes : List H) : PoolEff C H R Unit :=
  cfg.leaves.forM fun c => commitOnloadedRow c (blocks c) hashes

/-- `_track_transfer`: pin the blocks, unless there are none. -/
def pinTransfer (blocks : C → List ℕ) (commitHashes : Option (List H)) :
    PoolEff C H R (Option (PendingTransfer C H)) := do
  if cfg.leaves.all fun c => (blocks c).isEmpty then return none
  touchBlocks cfg blocks
  return some ⟨blocks, commitHashes⟩

/-- What a connector hit brought: how many blocks, those of each leaf, and the transfer to track if the copy is not
    complete. -/
structure ConnectorHit (C H : Type) where
  numLoaded : ℕ
  blocks : C → List ℕ
  complete : Bool
  pending : Option (PendingTransfer C H)

def ConnectorHit.miss : ConnectorHit C H := ⟨0, fun _ => [], true, none⟩

/-- `held`: what each leaf reads of a hit that deep. -/
def heldOfHit (aligned : ℕ) : Dict C ℕ where
  entries := cfg.leaves.map fun c =>
    (c, blocksHeldOfConnectorHit cfg.blockSize (cfg.group c) aligned)
  nodup := by simpa [List.map_map, comp_def] using cfg.leaves_nodup

/-- The row of a leaf, as deep as the hit: the null block below what it holds. -/
def loadedRow (aligned : ℕ) (rows : C → List ℕ) (c : C) : List ℕ :=
  List.replicate (aligned - blocksHeldOfConnectorHit cfg.blockSize (cfg.group c) aligned) 0 ++ rows c

def lookupConnectorPrefixCacheHit (env : CallEnv C H) (desired : List H) : PoolEff C H R (ConnectorHit C H) := do
  if cfg.hasConnector = false ∨ desired = [] then return .miss
  let aligned ← jointHit cfg fun c => env.lookup c desired
  if aligned = 0 then return .miss
  let held := heldOfHit cfg aligned
  let p ← get
  if p.canSatisfyDemand cfg.geometry held false = false then return .miss
  let rows ← allocRows cfg held.entries
  match env.load with
  | .refused =>
    freeBlocks cfg rows
    return .miss
  | .complete =>
    commitOnloadedBlocks cfg (loadedRow cfg aligned rows) (desired.take aligned)
    return ⟨aligned, loadedRow cfg aligned rows, true, none⟩
  | .pending =>
    let pending ← pinTransfer cfg (loadedRow cfg aligned rows) (some (desired.take aligned))
    return ⟨aligned, loadedRow cfg aligned rows, false, pending⟩

def onLeaf {α : Type} (c : C) (m : RowEff C H R α) : TreeEff C H R α :=
  zoom (fun s => ⟨s.pool, s.rows c⟩) (fun s t => ⟨t.pool, update s.rows c t.row⟩) m

def forLeaves (m : C → RowEff C H R Unit) : TreeEff C H R Unit :=
  cfg.leaves.forM fun c => onLeaf c (m c)

def shrinkRows (numCommittedBlocks : ℕ) : TreeEff C H R Unit :=
  forLeaves cfg fun c => shrinkToFit cfg.geometry c numCommittedBlocks

def extendRows (hit loaded : C → List ℕ) : TreeEff C H R Unit :=
  forLeaves cfg fun c => extend cfg.geometry c cfg.blockSize (cfg.group c) (hit c) (loaded c)

def growRows (numRequiredBlocks : ℕ) : TreeEff C H R Unit :=
  forLeaves cfg fun c => grow cfg.geometry c numRequiredBlocks

def commitRows (hashes : List H) (lastBlock : ℕ) : TreeEff C H R Unit :=
  forLeaves cfg fun c => commit cfg.geometry c hashes lastBlock

def advanceRows (numFilledBlocks : ℕ) : TreeEff C H R Unit :=
  forLeaves cfg fun c => advance cfg.geometry c cfg.blockSize (cfg.group c) numFilledBlocks

def releaseRows : TreeEff C H R Unit := forLeaves cfg fun c => release cfg.geometry c

end KVTree

namespace JengaBlockManager
open KVTree
variable {C H R : Type} [DecidableEq C] [DecidableEq H] [DecidableEq R] (cfg : ManagerConfig C H)

def onReplica {α : Type} (ρ : ℕ) (m : PoolEff C H R α) : ManagerEff C H R α :=
  zoom (fun s => s.pools ρ) (fun s p => { s with pools := update s.pools ρ p }) m

def onTree {α : Type} (ρ : ℕ) (r : R) (m : TreeEff C H R α) : ManagerEff C H R α :=
  zoom (fun s => ⟨s.pools ρ, fun c => s.rows c r⟩)
    (fun s t =>
      { s with
        pools := update s.pools ρ t.pool
        rows := fun c => update (s.rows c) r (t.rows c) }) m

def stateOf (r : R) : ManagerEff C H R (RequestCacheState H) := do
  match (← get).requests r with
  | none => throw (.unclaimed r)
  | some st => return st

def setState (r : R) (st : RequestCacheState H) : ManagerEff C H R Unit :=
  modify fun s => { s with requests := update s.requests r (some st) }

/-- A method of `ctx.tokens` that may raise. -/
def onTokens (r : R) (f : TokenBuffer → Except String TokenBuffer) : ManagerEff C H R Unit := do
  let s ← get
  match f (s.contexts r).tokens with
  | .error m => throw (.valueError m)
  | .ok tokens =>
    set { s with contexts := update s.contexts r { s.contexts r with tokens } }

def numRequiredBlocks (ctx : TextContext) : ℕ :=
  (ceildiv (computeSeqLen cfg.numDraftTokens cfg.numDraftTokensPerStep cfg.maxNumInputTokens ctx)
    cfg.blockSize).toNat

def numFilledBlocks (ctx : TextContext) : ℕ := ctx.tokens.processedLength / cfg.blockSize

def computeHashesForRequest (r : R) : ManagerEff C H R (List H) := do
  let st ← stateOf r
  match cfg.computeBlockHashes ((← get).contexts r) st.hashes with
  | .error m => throw (.valueError m)
  | .ok new =>
    setState r { st with hashes := st.hashes ++ new }
    return st.hashes ++ new

def claim (r : R) (replicaIdx : ℕ) : ManagerEff C H R Unit := do
  match (← get).requests r with
  | some existing => throw (.alreadyClaimed r existing.replicaIdx)
  | none =>
    setState r ⟨replicaIdx, [], 0⟩
    modify fun s => { s with rows := fun c => update (s.rows c) r [] }

def release (r : R) : ManagerEff C H R Unit := do
  let st ← stateOf r
  onTree st.replicaIdx r (releaseRows cfg)
  modify fun s => { s with requests := update s.requests r none }

/-- The pending transfers from place `i` on: those that have landed are published and unpinned, the others stay. -/
def pollPending (landed : ℕ → Bool) : ℕ → List (PendingTransfer C H) → PoolEff C H R (List (PendingTransfer C H))
  | _, [] => return []
  | i, pending :: rest => do
    if landed i then
      match pending.commitHashes with
      | some hashes => commitOnloadedBlocks cfg pending.blocks hashes
      | none => pure ()
      freeBlocks cfg pending.blocks
      pollPending landed (i + 1) rest
    else
      let still ← pollPending landed (i + 1) rest
      return pending :: still

def pollReplica (landed : ℕ → ℕ → Bool) (ρ : ℕ) : ManagerEff C H R Unit := do
  let still ← onReplica ρ (pollPending cfg (landed ρ) 0 ((← get).pendingTransfers ρ))
  modify fun s => { s with pendingTransfers := update s.pendingTransfers ρ still }

def pollTransfers (landed : ℕ → ℕ → Bool) : ManagerEff C H R Unit :=
  (List.range cfg.numReplicas).forM (pollReplica cfg landed)

def trackPending (ρ : ℕ) (pending : Option (PendingTransfer C H)) : ManagerEff C H R Unit :=
  modify fun s => { s with
    pendingTransfers := update s.pendingTransfers ρ
      (s.pendingTransfers ρ ++ pending.toList) }

def releaseUncommittedBlocks (r : R) (ρ : ℕ) : ManagerEff C H R Unit := do
  let st ← stateOf r
  onTree ρ r (shrinkRows cfg (st.committedIdx / cfg.blockSize))
  let delta : ℤ := ((← get).contexts r).tokens.processedLength - st.committedIdx
  if delta > 0 then onTokens r fun t => t.rewindProcessing delta
  else if delta < 0 then onTokens r fun t => t.skipProcessing (-delta)

def peersHold (s : JengaBlockManager C H R) (ρ : ℕ) (c : C) (h : H) : Bool :=
  (List.range cfg.numReplicas).any fun ρ' => ρ' ≠ ρ ∧ holds c (s.pools ρ') h

/-- The splice of a hit: the uncommitted blocks go, the hit's blocks come, and the token window
    skips what they cover. -/
def spliceHit (r : R) (ρ : ℕ) (hit loaded : C → List ℕ) (numReused : ℕ) : ManagerEff C H R Unit := do
  releaseUncommittedBlocks cfg r ρ
  onTree ρ r (extendRows cfg hit loaded)
  let st ← stateOf r
  let committedIdx := st.committedIdx + numReused * cfg.blockSize
  setState r { st with committedIdx }
  let tokens := ((← get).contexts r).tokens
  onTokens r fun t => t.skipProcessing (committedIdx - tokens.processedLength)
  if ((← get).contexts r).tokens.activeLength < 1 then
    throw (.assertion "No active tokens after prefix caching! A 100% prefix cache hit leaves nothing to compute logits from, so compute_block_hashes must never hash the last token.")

/-- The device hit, what the connector brought, and how many blocks that is together. -/
def lookupPrefixCaches (env : CallEnv C H) (r : R) (ρ : ℕ) :
    ManagerEff C H R ((C → List ℕ) × ConnectorHit C H × ℕ) := do
  let hashes ← computeHashesForRequest cfg r
  let committedBlocks := (← stateOf r).committedIdx / cfg.blockSize
  let desired := hashes.drop committedBlocks
  let s ← get
  let (hitBlocks, numHitBlocks) ← onReplica ρ
    (lookupDevicePrefixCacheHit cfg (peersHold cfg s ρ) desired)
  let loaded ← onReplica ρ (lookupConnectorPrefixCacheHit cfg env (desired.drop numHitBlocks))
  trackPending ρ loaded.pending
  return (hitBlocks, loaded, numHitBlocks + loaded.numLoaded)

/-- Only a request with no token processed reuses blocks. -/
def mayReuse (s : JengaBlockManager C H R) (r : R) : Bool :=
  cfg.enablePrefixCaching && (s.contexts r).tokens.processedLength = 0

/-- `_reuse_blocks_from_prefix_cache`; the result says whether the onload's copy is complete. -/
def reuseBlocksFromPrefixCache (env : CallEnv C H) (r : R) (ρ : ℕ) : ManagerEff C H R Bool := do
  if mayReuse cfg (← get) r = false then return true
  let (hitBlocks, loaded, numReused) ← lookupPrefixCaches cfg env r ρ
  if numReused = 0 then return loaded.complete
  spliceHit cfg r ρ hitBlocks loaded.blocks numReused
  return loaded.complete

def rollbackPrefixReuse (r : R) (ρ : ℕ) (committedIdx : ℕ) : ManagerEff C H R Unit := do
  let st ← stateOf r
  if st.committedIdx = committedIdx then return
  setState r { st with committedIdx }
  releaseUncommittedBlocks cfg r ρ

/-- `blocks_to_allocate` of every group. -/
def blocksToAllocate (s : JengaBlockManager C H R) (r : R) : Dict C ℕ where
  entries := cfg.leaves.map fun c =>
    (c, numBlocksToAllocate (s.rows c r) (numRequiredBlocks cfg (s.contexts r)))
  nodup := by simpa [List.map_map, comp_def] using cfg.leaves_nodup

/-- `alloc`; the result says whether the onload's copy is complete. -/
def alloc (env : CallEnv C H) (r : R) : ManagerEff C H R Bool := do
  let ρ := (← stateOf r).replicaIdx
  pollTransfers cfg env.landed
  let committedBefore := (← stateOf r).committedIdx
  let complete ← reuseBlocksFromPrefixCache cfg env r ρ
  let s ← get
  let demand := blocksToAllocate cfg s r
  if (s.pools ρ).canSatisfyDemand cfg.geometry demand false = false then
    rollbackPrefixReuse cfg r ρ committedBefore
    throw (.refused demand.entries)
  onTree ρ r (growRows cfg (numRequiredBlocks cfg (s.contexts r)))
  return complete

def commitBlocksIntoPrefixCache (r : R) (ρ : ℕ) : ManagerEff C H R Unit := do
  let hashes ← computeHashesForRequest cfg r
  let st ← stateOf r
  let firstBlock := st.committedIdx / cfg.blockSize
  let lastBlock := min (numFilledBlocks cfg ((← get).contexts r)) hashes.length
  onTree ρ r (commitRows cfg hashes lastBlock)
  setState r { st with committedIdx := lastBlock * cfg.blockSize }
  if cfg.hasConnector ∧ lastBlock > firstBlock then
    modify fun s => { s with
      pendingOffloads := update s.pendingOffloads ρ
        (s.pendingOffloads ρ ++ [(hashes.take lastBlock).drop firstBlock]) }

/-- The part of `step` that publishes. -/
def stepCommit (r : R) : ManagerEff C H R Unit := do
  let st ← stateOf r
  if cfg.enablePrefixCaching then commitBlocksIntoPrefixCache cfg r st.replicaIdx

/-- The part of `step` that slides the windows. -/
def stepAdvance (r : R) : ManagerEff C H R Unit := do
  let st ← stateOf r
  onTree st.replicaIdx r (advanceRows cfg (numFilledBlocks cfg ((← get).contexts r)))

def step (r : R) : ManagerEff C H R Unit := do
  stepCommit cfg r
  stepAdvance cfg r

/-- The blocks of the longest run of `hashes` that every leaf still holds. -/
def offloadRun (p : JengaBlockPool C H) (hashes : List H) : C → List ℕ :=
  let run := hashes.takeWhile fun h => cfg.leaves.all fun c => holds c p h
  fun c => run.filterMap (p.prefixCaches c).get?

/-- `offload`; `complete i` says whether the copy of the `i`-th run is done at once. -/
def offload (complete : ℕ → Bool) (ρ : ℕ) : ManagerEff C H R Unit := do
  if cfg.hasConnector then
    ((← get).pendingOffloads ρ).zipIdx.forM fun (hashes, i) => do
      let s ← get
      let src := offloadRun cfg (s.pools ρ) hashes
      if complete i = false then
        let pending ← onReplica ρ (pinTransfer cfg src none)
        trackPending ρ pending
    modify fun s => { s with pendingOffloads := update s.pendingOffloads ρ [] }

def resetPrefixCache : ManagerEff C H R Unit :=
  modify fun s => { s with pools := fun ρ => (s.pools ρ).resetPrefixCache }

end JengaBlockManager

end MojoProse.KvCache
