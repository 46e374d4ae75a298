import MojoProse.KvCache.JengaManager
import MojoProse.KvCache.StateGroups

/-! `JengaKVCacheManager` (`jenga_cache_manager.py`) over leaves of every kind, recurrent and scratch
    ones among them: `step` first checkpoints the recurrent state onto a successor block.

    A manager with a recurrent leaf has no connector (`create` refuses one). What the checkpoint
    copies on the device is not part of the state. -/

namespace MojoProse.KvCache
open Schemes Support Pipelines KVGroup KVState

/-- The manager's construction: `state` gives the leaves that keep one block per request, whose `group` is not read. -/
structure StateConfig (C H : Type) extends ManagerConfig C H where
  state : C → Option StateGroup
  no_connector : hasConnector = false

namespace StateManager
variable {C H R : Type} [DecidableEq C] [DecidableEq H] (cfg : StateConfig C H)

def groupId (c : C) : KVCacheGroupId :=
  match cfg.state c with
  | none => (cfg.group c).groupId
  | some kind => kind.groupId

/-- `_cacheable_leaf_ids`. -/
def cacheable : List C := cfg.leaves.filter fun c => cfg.state c ≠ some .scratch

def findLongestDevicePrefixCacheHit (peers : C → H → Bool) (desired : List H) : PoolEff C H R ℕ := do
  let p ← get
  match longestJointPrefixHit ((cacheable cfg).map fun c =>
      (groupId cfg c, KVTree.residency p peers c desired)) cfg.blockSize with
  | .ok n => return n
  | .error m => throw (.valueError m)

/-- The loop of `_copy_prefix_from_peers` over the groups; it stops at one that has no `claimable_hashes`. -/
def copyGroups (peers : C → H → Bool) (hitHashes : List H) : List C → List (C × ℕ) × List (H × C × ℕ) →
      PoolEff C H R (List (C × ℕ) × List (H × C × ℕ) × Bool)
  | [], (held, staged) => return (held, staged, true)
  | c :: cs, acc => do
    let claimable := match cfg.state c with
      | none => some (claimableHashes cfg.blockSize (cfg.group c) hitHashes)
      | some kind => claimableHashes kind
    match claimable with
    | none => return (acc.1, acc.2, false)
    | some hashes =>
      let acc ← KVTree.copyGroup cfg.toManagerConfig peers c hashes acc
      copyGroups peers hitHashes cs acc

def copyPrefixFromPeers (peers : C → H → Bool) (hitHashes : List H) : PoolEff C H R Unit := do
  let (held, staged, completed) ← copyGroups cfg peers hitHashes cfg.leaves ([], [])
  try
    if completed = false then throw .notImplemented
    staged.forM fun e => commitBlock e.2.1 e.1 e.2.2
  finally
    held.forM fun e => free cfg.geometry e.1 e.2

/-- `claim_hit_blocks` of every group. -/
def claimAllHitBlocks (hitHashes : List H) : PoolEff C H R (C → List ℕ) :=
  cfg.leaves.foldlM (fun rows c => do
    let row ← match cfg.state c with
      | none => claimHitBlocks cfg.geometry c cfg.blockSize (cfg.group c) hitHashes
      | some kind => claimHitBlocks cfg.geometry c hitHashes kind
    return Function.update rows c row) fun _ => []

def lookupDevicePrefixCacheHit (peers : C → H → Bool) (desired : List H) : PoolEff C H R ((C → List ℕ) × ℕ) := do
  if cfg.onlyUseConnectorLastLevelCache then return (fun _ => [], 0)
  let numHitBlocks ← do
    if cfg.crossReplicaCopyEnabled then
      let n ← findLongestDevicePrefixCacheHit cfg peers desired
      copyPrefixFromPeers cfg peers (desired.take n)
      findLongestDevicePrefixCacheHit cfg (fun _ _ => false) desired
    else findLongestDevicePrefixCacheHit cfg (fun _ _ => false) desired
  let hitBlocks ← claimAllHitBlocks cfg (desired.take numHitBlocks)
  return (hitBlocks, numHitBlocks)

def forGroups (attention : C → RowEff C H R Unit) (state : C → StateGroup → RowEff C H R Unit) : TreeEff C H R Unit :=
  KVTree.forLeaves cfg.toManagerConfig fun c =>
    match cfg.state c with
    | none => attention c
    | some kind => state c kind

def shrinkRows (numCommittedBlocks : ℕ) : TreeEff C H R Unit :=
  forGroups cfg (fun c => shrinkToFit cfg.geometry c numCommittedBlocks)
    fun c => shrinkToFit cfg.geometry c numCommittedBlocks

def extendRows (hit : C → List ℕ) : TreeEff C H R Unit :=
  forGroups cfg (fun c => extend cfg.geometry c cfg.blockSize (cfg.group c) (hit c) [])
    fun c _ => modify fun s => { s with row := s.row ++ hit c }

def growRows (r : R) (numRequiredBlocks : ℕ) : TreeEff C H R Unit :=
  forGroups cfg (fun c => grow cfg.geometry c numRequiredBlocks)
    fun c => grow cfg.geometry c r numRequiredBlocks

/-- `checkpoint` of every group; the attention groups have none. -/
def checkpointRows (processedLength : ℕ) : TreeEff C H R Unit :=
  forGroups cfg (fun _ => return) fun c kind => do
    let _ ← checkpoint cfg.geometry c cfg.blockSize processedLength kind

def commitRows (hashes : List H) (lastBlock : ℕ) : TreeEff C H R Unit :=
  forGroups cfg (fun c => commit cfg.geometry c hashes lastBlock)
    fun c => commit cfg.geometry c hashes lastBlock

def advanceRows (numFilledBlocks : ℕ) : TreeEff C H R Unit :=
  forGroups cfg (fun c => advance cfg.geometry c cfg.blockSize (cfg.group c) numFilledBlocks)
    fun c => advance cfg.geometry c

variable [DecidableEq R]
open JengaBlockManager (stateOf setState onTree onReplica onTokens numRequiredBlocks numFilledBlocks
  computeHashesForRequest pollTransfers peersHold mayReuse)

def releaseUncommittedBlocks (r : R) (ρ : ℕ) : ManagerEff C H R Unit := do
  let st ← stateOf r
  onTree ρ r (shrinkRows cfg (st.committedIdx / cfg.blockSize))
  let delta : ℤ := ((← get).contexts r).tokens.processedLength - st.committedIdx
  if delta > 0 then onTokens r fun t => t.rewindProcessing delta
  else if delta < 0 then onTokens r fun t => t.skipProcessing (-delta)

def spliceHit (r : R) (ρ : ℕ) (hit : C → List ℕ) (numReused : ℕ) : ManagerEff C H R Unit := do
  releaseUncommittedBlocks cfg r ρ
  onTree ρ r (extendRows cfg hit)
  let st ← stateOf r
  let committedIdx := st.committedIdx + numReused * cfg.blockSize
  setState r { st with committedIdx }
  let tokens := ((← get).contexts r).tokens
  onTokens r fun t => t.skipProcessing (committedIdx - tokens.processedLength)
  if ((← get).contexts r).tokens.activeLength < 1 then
    throw (.assertion "No active tokens after prefix caching! A 100% prefix cache hit leaves nothing to compute logits from, so compute_block_hashes must never hash the last token.")

def reuseBlocksFromPrefixCache (r : R) (ρ : ℕ) : ManagerEff C H R Unit := do
  if mayReuse cfg.toManagerConfig (← get) r then
    let hashes ← computeHashesForRequest cfg.toManagerConfig r
    let committedBlocks := (← stateOf r).committedIdx / cfg.blockSize
    let s ← get
    let (hitBlocks, numReused) ← onReplica ρ (lookupDevicePrefixCacheHit cfg
      (peersHold cfg.toManagerConfig s ρ) (hashes.drop committedBlocks))
    if numReused ≠ 0 then spliceHit cfg r ρ hitBlocks numReused

def rollbackPrefixReuse (r : R) (ρ : ℕ) (committedIdx : ℕ) : ManagerEff C H R Unit := do
  let st ← stateOf r
  if st.committedIdx = committedIdx then return
  setState r { st with committedIdx }
  releaseUncommittedBlocks cfg r ρ

/-- `blocks_to_allocate` of every group. -/
def blocksToAllocate (s : JengaBlockManager C H R) (r : R) (ρ : ℕ) : Dict C ℕ where
  entries := cfg.leaves.map fun c => (c, match cfg.state c with
    | none => numBlocksToAllocate (s.rows c r) (numRequiredBlocks cfg.toManagerConfig (s.contexts r))
    | some kind => numBlocksToAllocate c (s.pools ρ) (s.rows c r) kind)
  nodup := by simpa [List.map_map, Function.comp_def] using cfg.leaves_nodup

def alloc (landed : ℕ → ℕ → Bool) (r : R) : ManagerEff C H R Unit := do
  let ρ := (← stateOf r).replicaIdx
  pollTransfers cfg.toManagerConfig landed
  let committedBefore := (← stateOf r).committedIdx
  reuseBlocksFromPrefixCache cfg r ρ
  let s ← get
  let demand := blocksToAllocate cfg s r ρ
  if (s.pools ρ).canSatisfyDemand cfg.geometry demand false = false then
    rollbackPrefixReuse cfg r ρ committedBefore
    throw (.refused demand.entries)
  onTree ρ r (growRows cfg r (numRequiredBlocks cfg.toManagerConfig (s.contexts r)))

def commitBlocksIntoPrefixCache (r : R) (ρ : ℕ) : ManagerEff C H R Unit := do
  let hashes ← computeHashesForRequest cfg.toManagerConfig r
  let st ← stateOf r
  let lastBlock := min (numFilledBlocks cfg.toManagerConfig ((← get).contexts r)) hashes.length
  onTree ρ r (commitRows cfg hashes lastBlock)
  setState r { st with committedIdx := lastBlock * cfg.blockSize }

/-- The checkpoints of `step`. -/
def stepCheckpoint (r : R) : ManagerEff C H R Unit := do
  let st ← stateOf r
  onTree st.replicaIdx r (checkpointRows cfg ((← get).contexts r).tokens.processedLength)

/-- The part of `step` that publishes. -/
def stepCommit (r : R) : ManagerEff C H R Unit := do
  let st ← stateOf r
  if cfg.enablePrefixCaching then commitBlocksIntoPrefixCache cfg r st.replicaIdx

/-- The part of `step` that frees what the groups no longer read. -/
def stepAdvance (r : R) : ManagerEff C H R Unit := do
  let st ← stateOf r
  onTree st.replicaIdx r
    (advanceRows cfg (numFilledBlocks cfg.toManagerConfig ((← get).contexts r)))

def step (r : R) : ManagerEff C H R Unit := do
  stepCheckpoint cfg r
  stepCommit cfg r
  stepAdvance cfg r

end StateManager

end MojoProse.KvCache
