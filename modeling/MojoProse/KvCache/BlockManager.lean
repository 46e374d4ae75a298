import MojoProse.KvCache.BlockPool
import MojoProse.KvCache.JengaManager

/-! `BlockManager` (`block_manager.py`): the blocks of every request on every replica, with
    `PagedKVCacheManager.alloc` (`cache_manager.py`) on top.

    The connector and the request contexts are the environment's: each call gets what the connector
    answers during it, and between calls a context changes by forwards. Device buffers, metrics, the
    connector's recency hints and the dummy requests are not part of the state. -/

namespace MojoProse.KvCache
open Schemes Support Pipelines Function BlockPool

structure PagedContext extends TextContext where
  draftTokensToVerify : ℕ

structure BlockManagerConfig (H : Type) where
  totalNumBlocks : ℕ
  blockSize : ℕ
  blockSize_pos : 0 < blockSize
  numReplicas : ℕ
  numReplicas_pos : 0 < numReplicas
  enablePrefixCaching : Bool
  enableRuntimeChecks : Bool
  onlyUseConnectorLastLevelCache : Bool
  crossReplicaCopyEnabled : Bool
  /-- Whether `connector.name` is something else than `"NullConnector"`. -/
  hasConnector : Bool
  numDraftTokens : ℕ
  numDraftTokensPerStep : ℕ
  computeBlockHashes : PagedContext → List H → Except String (List H)

variable {H R : Type} (cfg : BlockManagerConfig H)

abbrev BlockManagerConfig.Replica := Fin cfg.numReplicas

def BlockManagerConfig.firstReplica : cfg.Replica := ⟨0, cfg.numReplicas_pos⟩

/-- The environment of one allocation: the transfers that have landed, the connector's residency masks, and its answer
    to a load. -/
structure PagedEnv where
  landed : cfg.Replica → ℕ → Bool
  lookup : List H → List (List Bool)
  lookup_length : ∀ desired, ∀ mask ∈ lookup desired, mask.length = desired.length
  load : LoadAnswer

/-- `_PendingTransfer`: the blocks it pins, and the hashes to publish when it is an onload. -/
structure PagedTransfer (H : Type) where
  blocks : List ℕ
  commitHashes : Option (List H)

/-- The dictionaries with a default are total functions. -/
structure BlockManager (R : Type) where
  pools : cfg.Replica → BlockPool H
  reqToReplica : Dict R cfg.Replica
  reqToBlocks : R → List ℕ
  reqToHashes : R → List H
  reqToCommittedIdx : R → ℕ
  contexts : R → PagedContext
  pendingTransfers : cfg.Replica → List (PagedTransfer H)
  pendingOffloads : cfg.Replica → List (List H)

namespace BlockManager
variable [DecidableEq H] [DecidableEq R]

abbrev Eff (R α : Type) := EStateM (BlockError R) (BlockManager cfg R) α

variable {cfg}

def onReplica {α : Type} (ρ : cfg.Replica) (m : BlockPool.Eff H R α) : Eff cfg R α :=
  zoom (fun s => s.pools ρ) (fun s p => { s with pools := update s.pools ρ p }) m

def setBlocks (r : R) (blocks : List ℕ) : Eff cfg R Unit :=
  modify fun s => { s with reqToBlocks := update s.reqToBlocks r blocks }

def setCommittedIdx (r : R) (n : ℕ) : Eff cfg R Unit :=
  modify fun s => { s with reqToCommittedIdx := update s.reqToCommittedIdx r n }

/-- A method of `ctx.tokens` that may raise. -/
def onTokens (r : R) (f : TokenBuffer → Except String TokenBuffer) : Eff cfg R Unit := do
  let s ← get
  match f (s.contexts r).tokens with
  | .error m => throw (.valueError m)
  | .ok tokens =>
    set { s with contexts := update s.contexts r { s.contexts r with tokens } }

def replicaOf (r : R) : Eff cfg R cfg.Replica := do
  match (← get).reqToReplica.get? r with
  | none => throw (.unclaimed r)
  | some ρ => return ρ

def claim (r : R) (replicaIdx : cfg.Replica) : Eff cfg R Unit := do
  let s ← get
  match s.reqToReplica.get? r with
  | some existing => throw (.alreadyClaimed r existing)
  | none => set { s with reqToReplica := s.reqToReplica.insert r replicaIdx }

variable (cfg)

/-- `self.req_to_committed_idx[request_id] // self.block_size`. -/
def numCommittedBlocks (s : BlockManager cfg R) (r : R) : ℕ := s.reqToCommittedIdx r / cfg.blockSize

variable (s : BlockManager cfg R) (ρ : cfg.Replica)

def requestBlocks : List ℕ :=
  (s.reqToReplica.entries.filter fun e => e.2 = ρ).flatMap fun e => s.reqToBlocks e.1

def pinnedBlocks : List ℕ :=
  (s.pendingTransfers ρ).flatMap PagedTransfer.blocks

/-- `active_block_ids_by_replica[replica_idx]`; a request that is not claimed has no blocks. -/
def activeBlockIds : List ℕ :=
  requestBlocks cfg s ρ ++ pinnedBlocks cfg s ρ

def assertRuntimeInvariants (r : R) : Eff cfg R Unit := do
  if cfg.enableRuntimeChecks then
    let s ← get
    if (List.finRange cfg.numReplicas).any fun ρ =>
        (activeBlockIds cfg s ρ).any fun b => (s.pools ρ).refCnt b = 0 then
      throw (.assertion "")
    (List.finRange cfg.numReplicas).forM fun ρ =>
      onReplica ρ (BlockPool.assertRuntimeInvariants cfg.enableRuntimeChecks cfg.totalNumBlocks
        (activeBlockIds cfg s ρ))
    let pool := s.pools ((s.reqToReplica.get? r).getD cfg.firstReplica)
    let numCommitted := ((s.reqToBlocks r).takeWhile fun b => (pool.blockHash b).isSome).length
    if numCommitted ≠ numCommittedBlocks cfg s r then throw (.assertion "")
    if ((s.reqToHashes r).zip (s.reqToBlocks r)).any fun e =>
        (pool.blockHash e.2).isSome && pool.blockHash e.2 ≠ some e.1 then
      throw (.assertion "")

def computeHashesForRequest (r : R) : Eff cfg R Unit := do
  let s ← get
  match cfg.computeBlockHashes (s.contexts r) (s.reqToHashes r) with
  | .error m => throw (.valueError m)
  | .ok new => set { s with reqToHashes := update s.reqToHashes r (s.reqToHashes r ++ new) }

/-- `_track_transfer`: pin the blocks, unless there are none. -/
def trackTransfer (ρ : cfg.Replica) (blocks : List ℕ) (commitHashes : Option (List H)) : Eff cfg R Unit := do
  if blocks ≠ [] then
    onReplica ρ (blocks.forM touch)
    modify fun s => { s with
      pendingTransfers := update s.pendingTransfers ρ
        (s.pendingTransfers ρ ++ [⟨blocks, commitHashes⟩]) }

/-- The deferred commits of an onload; the two sequences are zipped strictly. -/
def commitDeferred (total : ℕ) : List ℕ → List H → BlockPool.Eff H R Unit
  | b :: blocks, h :: hashes => do
    let p ← get
    if p.blockHash b = none ∧ p.holds h = false then commitIntoPrefixCache total h b
    commitDeferred total blocks hashes
  | [], [] => return
  | [], _ :: _ => throw (.valueError "zip() argument 2 is longer than argument 1")
  | _ :: _, [] => throw (.valueError "zip() argument 2 is shorter than argument 1")

/-- A transfer that has landed is published and unpinned. -/
def landTransfer (total : ℕ) (pending : PagedTransfer H) : BlockPool.Eff H R Unit := do
  match pending.commitHashes with
  | some hashes => commitDeferred total pending.blocks hashes
  | none => pure ()
  pending.blocks.forM (freeBlock total)

/-- The pending transfers of one replica, from place `i` on; those that have not landed stay. -/
def pollPending (total : ℕ) (landed : ℕ → Bool) :
    ℕ → List (PagedTransfer H) → BlockPool.Eff H R (List (PagedTransfer H))
  | _, [] => return []
  | i, pending :: rest => do
    if landed i then
      landTransfer total pending
      pollPending total landed (i + 1) rest
    else
      let still ← pollPending total landed (i + 1) rest
      return pending :: still

def pollReplica (landed : cfg.Replica → ℕ → Bool) (ρ : cfg.Replica) : Eff cfg R Unit := do
  let s ← get
  let still ← onReplica ρ (pollPending cfg.totalNumBlocks (landed ρ) 0 (s.pendingTransfers ρ))
  modify fun s => { s with pendingTransfers := update s.pendingTransfers ρ still }

def pollTransfers (landed : cfg.Replica → ℕ → Bool) : Eff cfg R Unit :=
  (List.finRange cfg.numReplicas).forM (pollReplica cfg landed)

/-- The longest run of `hashes` whose blocks are still published. -/
def offloadRun (p : BlockPool H) (hashes : List H) : List ℕ :=
  (hashes.takeWhile p.holds).filterMap p.prefixCache.get?

/-- `offload`; `complete i` says whether the copy of the `i`-th run is done at once. -/
def offload (complete : ℕ → Bool) (ρ : cfg.Replica) : Eff cfg R Unit := do
  ((← get).pendingOffloads ρ).zipIdx.forM fun (hashes, i) => do
    let srcBlocks := offloadRun ((← get).pools ρ) hashes
    if complete i = false then trackTransfer cfg ρ srcBlocks none
  modify fun s => { s with pendingOffloads := update s.pendingOffloads ρ [] }

def resetPrefixCache : Eff cfg R Unit :=
  (List.finRange cfg.numReplicas).forM fun ρ => onReplica ρ BlockPool.resetPrefixCache

/-- `_find_block_in_any_replica`, after the preferred replica was asked. -/
def findBlockInOtherReplica (s : BlockManager cfg R) (ρ : cfg.Replica) (h : H) : Option (cfg.Replica × ℕ) :=
  (List.finRange cfg.numReplicas).findSome? fun ρ' =>
    if ρ' = ρ then none else ((s.pools ρ').prefixCache.get? h).map (ρ', ·)

/-- The copies of one call, by source replica: hash, destination, source block. -/
abbrev PendingCopies := Dict cfg.Replica (List (H × ℕ × ℕ))

/-- The loop of `_get_full_blocks_from_device_prefix_cache`; `others` is where another replica holds a hash. -/
def takeDeviceBlocks (others : H → Option (cfg.Replica × ℕ)) :
    List H → List ℕ × PendingCopies cfg → BlockPool.Eff H R (List ℕ × PendingCopies cfg)
  | [], acc => return acc
  | h :: desired, (blocks, copies) => do
    let p ← get
    match p.prefixCache.get? h with
    | some localBlock =>
      touch localBlock
      takeDeviceBlocks others desired (blocks ++ [localBlock], copies)
    | none =>
      if cfg.crossReplicaCopyEnabled = false then return (blocks, copies)
      match others h with
      | none => return (blocks, copies)
      | some (srcReplica, srcBlock) =>
        if p.numFreeBlocks = 0 then return (blocks, copies)
        let (dstBlock, _) ← allocBlock
        takeDeviceBlocks others desired
          (blocks ++ [dstBlock], copies.pushTo srcReplica (h, dstBlock, srcBlock))

/-- `_get_full_blocks_from_device_prefix_cache`; the copies are published once all are enqueued. -/
def getFullBlocksFromDevicePrefixCache (others : H → Option (cfg.Replica × ℕ)) (desired : List H) :
    BlockPool.Eff H R (List ℕ) := do
  if cfg.onlyUseConnectorLastLevelCache then return []
  let (blocks, copies) ← takeDeviceBlocks cfg others desired ([], .empty)
  (copies.entries.flatMap Prod.snd).forM fun e =>
    commitIntoPrefixCache cfg.totalNumBlocks e.1 e.2.1
  return blocks

/-- `[self.allocate_device_block(replica_idx) for _ in range(num_loaded)]`. -/
def allocBlocks : ℕ → BlockPool.Eff H R (List ℕ)
  | 0 => return []
  | n + 1 => do
    let (b, _) ← allocBlock
    let blocks ← allocBlocks n
    return b :: blocks

/-- `_get_full_blocks_from_host_prefix_cache` up to the answer of `load`; a miss brings no blocks. -/
def takeHostBlocks (env : PagedEnv cfg) (desired : List H) : BlockPool.Eff H R (List ℕ) := do
  if desired = [] then return []
  match longestJointPrefixHit ((env.lookup desired).map fun mask => (.full, mask)) cfg.blockSize with
  | .error m => throw (.valueError m)
  | .ok n =>
    let numLoaded := min n (← get).numFreeBlocks
    let loaded ← allocBlocks numLoaded
    if env.load = .refused then
      loaded.forM (freeBlock cfg.totalNumBlocks)
      return []
    return loaded

/-- The commits of a load that is complete when it returns. -/
def commitLoaded (total : ℕ) (onlyUseConnectorLastLevelCache : Bool) : List (ℕ × H) → BlockPool.Eff H R Unit
  | [] => return
  | (b, h) :: rest => do
    if (← get).holds h then
      if onlyUseConnectorLastLevelCache = false then throw (.assertion "")
    else commitIntoPrefixCache total h b
    commitLoaded total onlyUseConnectorLastLevelCache rest

/-- What the lookups of one call brought: device blocks, and loaded blocks with their hashes. -/
structure Staged where
  deviceBlocks : List ℕ
  loadedBlocks : List ℕ
  loadedHashes : List H

/-- `get_full_blocks_from_prefix_cache` up to the answer of `load`. -/
def stageFullBlocks (env : PagedEnv cfg) (r : R) (ρ : cfg.Replica) : Eff cfg R (Staged (H := H)) := do
  let s ← get
  let uncommitted := (s.reqToHashes r).drop (numCommittedBlocks cfg s r)
  let deviceBlocks ← onReplica ρ
    (getFullBlocksFromDevicePrefixCache cfg (findBlockInOtherReplica cfg s ρ) uncommitted)
  if cfg.hasConnector = false then return ⟨deviceBlocks, [], []⟩
  let desired := uncommitted.drop deviceBlocks.length
  let loadedBlocks ← onReplica ρ (takeHostBlocks cfg env desired)
  return ⟨deviceBlocks, loadedBlocks, desired.take loadedBlocks.length⟩

/-- `reuse_blocks_from_prefix_cache` up to the answer of `load`; nothing when it does not look. -/
def beginReuse (env : PagedEnv cfg) (r : R) : Eff cfg R (Option (cfg.Replica × Staged (H := H))) := do
  let ρ ← replicaOf r
  assertRuntimeInvariants cfg r
  if cfg.enablePrefixCaching = false ∨ ((← get).contexts r).tokens.activeLength = 1 then return none
  computeHashesForRequest cfg r
  let staged ← stageFullBlocks cfg env r ρ
  return some (ρ, staged)

/-- Its end: a complete load is published, another one is pinned until it lands. The result says which it is. -/
def admitLoad (env : PagedEnv cfg) (ρ : cfg.Replica) (staged : Staged (H := H)) : Eff cfg R Bool := do
  if staged.loadedBlocks = [] then return true
  match env.load with
  | .pending =>
    trackTransfer cfg ρ staged.loadedBlocks (some staged.loadedHashes)
    return false
  | _ =>
    onReplica ρ (commitLoaded cfg.totalNumBlocks cfg.onlyUseConnectorLastLevelCache
      (staged.loadedBlocks.zip staged.loadedHashes))
    return true

/-- `block = req_blocks.pop(); pool.free_block(block)`, so many times. -/
def popBlocks (r : R) (ρ : cfg.Replica) : ℕ → Eff cfg R Unit
  | 0 => return
  | n + 1 => do
    match ((← get).reqToBlocks r).getLast? with
    | none => throw .indexError
    | some b =>
      setBlocks r ((← get).reqToBlocks r).dropLast
      onReplica ρ (freeBlock cfg.totalNumBlocks b)
      popBlocks r ρ n

def releaseUncommittedBlocks (r : R) : Eff cfg R Unit := do
  let ρ ← replicaOf r
  let s ← get
  if (s.reqToBlocks r).length < numCommittedBlocks cfg s r then throw (.assertion "")
  popBlocks cfg r ρ ((s.reqToBlocks r).length - numCommittedBlocks cfg s r)
  let delta : ℤ := (s.contexts r).tokens.processedLength - s.reqToCommittedIdx r
  if delta > 0 then onTokens r fun t => t.rewindProcessing delta
  else if delta < 0 then onTokens r fun t => t.skipProcessing (-delta)

/-- After a splice the token window skips what is committed. The result is how many tokens were skipped. -/
def skipCommitted (r : R) (isFirstAdmission : Bool) (numExternalBlocks : ℕ) : Eff cfg R ℤ := do
  let s ← get
  let skipAmount : ℤ := s.reqToCommittedIdx r - (s.contexts r).tokens.processedLength
  onTokens r fun t => t.skipProcessing skipAmount
  if ((← get).contexts r).tokens.activeLength < 1 then
    throw (.assertion "No active tokens after prefix caching! We should never get 100% prefix cache hit rate. Something went wrong!")
  let externalTokens := numExternalBlocks * cfg.blockSize
  if isFirstAdmission ∧ externalTokens > skipAmount then
    throw (.assertion s!"external prefix {externalTokens} tokens exceeds the {skipAmount} tokens skipped")
  return skipAmount

/-- The splice of a hit: the uncommitted blocks go, the hit's blocks come. -/
def spliceBlocks (r : R) (blocks : List ℕ) (numExternalBlocks : ℕ) : Eff cfg R ℤ := do
  let isFirstAdmission := ((← get).contexts r).tokens.processedLength = 0
  releaseUncommittedBlocks cfg r
  setBlocks r ((← get).reqToBlocks r ++ blocks)
  setCommittedIdx r ((← get).reqToCommittedIdx r + blocks.length * cfg.blockSize)
  skipCommitted cfg r isFirstAdmission numExternalBlocks

/-- `reuse_blocks_from_prefix_cache`: how many tokens were skipped, and whether the onload is complete. -/
def reuseBlocksFromPrefixCache (env : PagedEnv cfg) (r : R) : Eff cfg R (ℤ × Bool) := do
  match ← beginReuse cfg env r with
  | none => return (0, true)
  | some (ρ, staged) =>
    let complete ← admitLoad cfg env ρ staged
    let prefixCacheBlocks := staged.deviceBlocks ++ staged.loadedBlocks
    if prefixCacheBlocks = [] then return (0, complete)
    let skipAmount ← spliceBlocks cfg r prefixCacheBlocks staged.loadedBlocks.length
    return (skipAmount, complete)

def rollbackPrefixReuse (r : R) (numTokens : ℤ) : Eff cfg R Unit := do
  if numTokens ≠ 0 then
    setCommittedIdx r (((← get).reqToCommittedIdx r : ℤ) - numTokens).toNat
    releaseUncommittedBlocks cfg r

def numBlocksToAllocate (s : BlockManager cfg R) (r : R) : ℕ :=
  (ceildiv (computeSeqLen cfg.numDraftTokens cfg.numDraftTokensPerStep none
    (s.contexts r).toTextContext) cfg.blockSize - (s.reqToBlocks r).length).toNat

/-- `current_blocks.append(self.allocate_device_block(replica_idx))`, so many times. -/
def appendBlocks (r : R) (ρ : cfg.Replica) : ℕ → Eff cfg R Unit
  | 0 => return
  | n + 1 => do
    let (b, _) ← onReplica ρ allocBlock
    setBlocks r ((← get).reqToBlocks r ++ [b])
    appendBlocks r ρ n

def allocateNewBlocks (r : R) : Eff cfg R Unit := do
  let ρ ← replicaOf r
  let s ← get
  let ctx := s.contexts r
  let seqLen := ctx.tokens.all.length + ctx.draftTokensToVerify + ctx.maybeAcceptedDraftTokens
  if seqLen > cfg.totalNumBlocks * cfg.blockSize then
    throw (.requestTooLong seqLen cfg.totalNumBlocks cfg.blockSize)
  let numNewBlocks := numBlocksToAllocate cfg s r
  let processedLength := ctx.tokens.processedLength
  if processedLength > (s.reqToBlocks r).length * cfg.blockSize then
    throw (.assertion s!"Expected at least {ceildiv processedLength cfg.blockSize} blocks to store KV for {processedLength} committed tokens, but only {(s.reqToBlocks r).length} are assigned.")
  if numNewBlocks > (s.pools ρ).numFreeBlocks then
    throw (.notEnoughBlocks numNewBlocks (s.pools ρ).numFreeBlocks cfg.totalNumBlocks)
  appendBlocks cfg r ρ numNewBlocks

/-- `alloc` of the cache manager; the result says whether the onload is complete. -/
def alloc (env : PagedEnv cfg) (r : R) : Eff cfg R Bool := do
  pollTransfers cfg env.landed
  let (skipAmount, complete) ← reuseBlocksFromPrefixCache cfg env r
  onRaise BlockError.isInsufficient (allocateNewBlocks cfg r) (rollbackPrefixReuse cfg r skipAmount)
  return complete

/-- The loop of `commit_to_prefix_cache`, from block `idx` on. -/
def commitFrom (r : R) (ρ : cfg.Replica) : ℕ → ℕ → Eff cfg R Unit
  | _, 0 => return
  | idx, n + 1 => do
    let s ← get
    match (s.reqToBlocks r)[idx]?, (s.reqToHashes r)[idx]? with
    | some b, some h =>
      match ← onReplica ρ (getOrCommitIntoPrefixCache cfg.totalNumBlocks h b) with
      | some newBlock => setBlocks r ((s.reqToBlocks r).set idx newBlock)
      | none => pure ()
      commitFrom r ρ (idx + 1) n
    | _, _ => throw .indexError

def commitToPrefixCache (r : R) : Eff cfg R Unit := do
  let ρ ← replicaOf r
  let s ← get
  let first := numCommittedBlocks cfg s r
  let last := (s.contexts r).tokens.processedLength / cfg.blockSize
  commitFrom cfg r ρ first (last - first)
  if last > first then
    modify fun s => { s with
      pendingOffloads := update s.pendingOffloads ρ
        (s.pendingOffloads ρ ++ [((s.reqToHashes r).take last).drop first]) }
  setCommittedIdx r (last * cfg.blockSize)

def step (r : R) : Eff cfg R Unit := do
  assertRuntimeInvariants cfg r
  if cfg.enablePrefixCaching then
    computeHashesForRequest cfg r
    commitToPrefixCache cfg r
    assertRuntimeInvariants cfg r

def release (r : R) : Eff cfg R Unit := do
  let ρ ← replicaOf r
  let blocks := (← get).reqToBlocks r
  let orderedBlocks := if cfg.enablePrefixCaching then blocks.reverse else blocks
  onReplica ρ (orderedBlocks.forM (freeBlock cfg.totalNumBlocks))
  modify fun s => { s with
    reqToBlocks := update s.reqToBlocks r []
    reqToHashes := update s.reqToHashes r []
    reqToReplica := s.reqToReplica.erase r
    reqToCommittedIdx := update s.reqToCommittedIdx r 0 }

end BlockManager

end MojoProse.KvCache
