import MojoProse.KvCache.BlockManagerCalls

/-! Runs of the manager.

    The environment chooses the calls, what the connector answers, and how the contexts change between
    calls: a forward never goes back behind what is committed. `InsufficientBlocksError` is caught and
    the run goes on from the state the call left; another exception ends the run. -/

namespace MojoProse.KvCache
open Schemes Pipelines BlockPool Function

inductive PagedOp {H : Type} (cfg : BlockManagerConfig H) (R : Type) where
  | claim (r : R) (replicaIdx : cfg.Replica)
  | alloc (env : PagedEnv cfg) (r : R)
  | forward (r : R) (ctx : PagedContext)
  | step (r : R)
  | release (r : R)
  | offload (complete : ℕ → Bool) (replicaIdx : cfg.Replica)
  | pollTransfers (landed : cfg.Replica → ℕ → Bool)
  | resetPrefixCache

namespace BlockManager
variable {H R : Type} [DecidableEq H] [DecidableEq R]

def new (cfg : BlockManagerConfig H) (contexts : R → PagedContext) : BlockManager cfg R where
  pools _ := .new cfg.totalNumBlocks
  reqToReplica := .empty
  reqToBlocks _ := []
  reqToHashes _ := []
  reqToCommittedIdx _ := 0
  contexts := contexts
  pendingTransfers _ := []
  pendingOffloads _ := []

variable {cfg : BlockManagerConfig H}

def call : PagedOp cfg R → Eff cfg R Unit
  | .claim r replicaIdx => claim r replicaIdx
  | .alloc env r => do
    let _ ← alloc cfg env r
  | .forward r ctx => modify fun s => { s with contexts := update s.contexts r ctx }
  | .step r => step cfg r
  | .release r => release cfg r
  | .offload complete replicaIdx => offload cfg complete replicaIdx
  | .pollTransfers landed => pollTransfers cfg landed
  | .resetPrefixCache => resetPrefixCache cfg

variable (s : BlockManager cfg R)

def raised (op : PagedOp cfg R) : Option (BlockError R) :=
  match call op s with
  | .ok _ _ => none
  | .error e _ => some e

def next (op : PagedOp cfg R) : BlockManager cfg R :=
  match call op s with
  | .ok _ s' => s'
  | .error _ s' => s'

def InWindow : PagedOp cfg R → Prop
  | .forward r ctx => ctx.tokens.processingRange.start ≤ ctx.tokens.processingRange.stop ∧
      s.reqToCommittedIdx r ≤ ctx.tokens.processedLength
  | _ => True

def Proper (op : PagedOp cfg R) : Prop :=
  InWindow s op ∧ ∀ e ∈ raised s op, e.isInsufficient = true

def Reached : Prop :=
  ∃ contexts : R → PagedContext,
    (∀ r, (contexts r).tokens.processingRange.start ≤ (contexts r).tokens.processingRange.stop) ∧
    Reachable (new cfg contexts) Proper next s

variable {s : BlockManager cfg R}

theorem inv_new {contexts : R → PagedContext} (hwin : ∀ r,
    (contexts r).tokens.processingRange.start ≤ (contexts r).tokens.processingRange.stop) :
    Inv 0 (new cfg contexts) := by
  refine ⟨⟨fun _ => BlockPool.inv_new, fun ρ => ?_, fun ρ t ht => ?_, fun _ _ => rfl⟩, fun r =>
    ⟨hwin r, Nat.zero_le _, Nat.dvd_zero _, ?_, fun ρ hr => ?_, fun _ => rfl⟩⟩
  · rfl
  · simp [new] at ht
  · simp [numCommittedBlocks, new]
  · simp [new] at hr

/-- A block's count is its places in rows and pending transfers, the free queue has the blocks of count 0, the prefix
    cache the published ones, and every block is free or active. -/
def Accounts (s : BlockManager cfg R) : Prop := ∀ ρ,
  (∀ b < cfg.totalNumBlocks, (s.pools ρ).refCnt b =
    (requestBlocks cfg s ρ).count b + (pinnedBlocks cfg s ρ).count b) ∧
  (∀ b < cfg.totalNumBlocks, b ∈ (s.pools ρ).freeBlockQueue ↔ (s.pools ρ).refCnt b = 0) ∧
  (∀ h b, (s.pools ρ).prefixCache.get? h = some b ↔ (s.pools ρ).blockHash b = some h) ∧
  (s.pools ρ).numFreeBlocks + (activeBlockIds cfg s ρ).dedup.length = cfg.totalNumBlocks

theorem Books.accounts (h : Books 0 s) : Accounts s := by
  intro ρ
  refine ⟨fun b _ => ?_, fun b hb => ?_, (h.pools ρ).cache, (h.pools ρ).free_add_active (h.mem_active ρ)⟩
  · rw [h.refs ρ]
    rfl
  · rw [(h.pools ρ).free_mem]
    exact and_iff_right hb

theorem Leaks.not_accounts (h : Leaks s) : ¬ Accounts s := by
  obtain ⟨ρ, a, ha, hbooks⟩ := h
  intro hacc
  obtain ⟨b, hb⟩ := ne_iff.mp ha
  have hrefs := congrFun (hbooks.refs ρ) b
  rw [inHand_self] at hrefs
  simp only [Pi.add_apply, Pi.zero_apply] at hrefs hb
  have hreal : b < cfg.totalNumBlocks := (hbooks.pools ρ).ref_real b (by omega)
  have hcnt := (hacc ρ).1 b hreal
  have hheld : held s ρ b = (requestBlocks cfg s ρ).count b := rfl
  have hpins : pins s ρ b = (pinnedBlocks cfg s ρ).count b := rfl
  omega

/-- The call hits the assertion on the hashes of a complete load. -/
def HashClash (s : BlockManager cfg R) : PagedOp cfg R → Bool
  | .alloc env r => clashes env r (polled env.landed s)
  | _ => false

def Distinct (s : BlockManager cfg R) : PagedOp cfg R → Prop
  | .alloc _ r => DistinctHashes s r
  | _ => True

theorem Inv.call_ends (h : Inv 0 s) (op : PagedOp cfg R) (hw : InWindow s op) :
    Ends (call op s) (fun _ s' => HashClash s op = false ∧ Inv 0 s') (fun e s' => (e.isInsufficient = true → Inv 0 s') ∧
        (Distinct s op → e ≠ .poolAssertion ∧
          (HashClash s op = false ∧ Books 0 s' ∨ HashClash s op = true ∧ Leaks s'))) := by
  have hother : ∀ {res : EStateM.Result (BlockError R) (BlockManager cfg R) Unit}, HashClash s op = false →
      Ends res (fun _ s' => Inv 0 s') (fun e s' => Books 0 s' ∧ IsOther e) →
      Ends res (fun _ s' => HashClash s op = false ∧ Inv 0 s')
        (fun e s' => (e.isInsufficient = true → Inv 0 s') ∧ (Distinct s op → e ≠ .poolAssertion ∧
            (HashClash s op = false ∧ Books 0 s' ∨ HashClash s op = true ∧ Leaks s'))) := by
    intro res hclash hres
    refine hres.mono (fun _ _ h' => ⟨hclash, h'⟩) fun e s' he => ⟨fun hins => ?_, fun _ =>
      ⟨he.2.1, .inl ⟨hclash, he.1⟩⟩⟩
    rw [he.2.2] at hins
    cases hins
  cases op with
  | claim r ρ => exact hother rfl (h.claim_ends ρ)
  | alloc env r =>
    cases hr : s.reqToReplica.get? r with
    | none =>
      obtain ⟨hclash, s', hrun, hbooks⟩ := h.alloc_unclaimed env hr
      rw [call, bind_of_error hrun]
      exact ⟨fun hins => (by cases hins), fun _ => ⟨by simp, .inl ⟨hclash, hbooks⟩⟩⟩
    | some ρ =>
      refine Ends.bind ((h.alloc_ends env hr).raises ?_) fun _ s' hs => hs
      exact fun e s' he => ⟨fun hins => (he.1 hins).1, he.2⟩
  | forward r ctx =>
    refine ⟨rfl, .of_others ⟨h.books.pools, h.books.refs, h.books.matched, h.books.unclaimed⟩
      (fun r' hne => (h.request r').congr (update_of_ne hne _ _) rfl rfl rfl fun _ _ _ _ hf => hf) ?_⟩
    have hok := h.request r
    have hctx : update s.contexts r ctx r = ctx := update_self ..
    refine ⟨?_, ?_, hok.aligned, hok.rows, hok.fresh, hok.unclaimed⟩
    · simp only [hctx]
      exact hw.1
    · simp only [hctx]
      exact hw.2
  | step r => exact hother rfl h.step_ends
  | release r => exact hother rfl h.release_ends
  | offload complete ρ => exact hother rfl (h.offload_ends complete ρ)
  | pollTransfers landed =>
    exact hother rfl ((h.pollTransfers_ends landed).mono (fun _ _ hs => hs.1) fun _ _ he => he.elim)
  | resetPrefixCache => exact hother rfl h.resetPrefixCache_ends

theorem Inv.next (h : Inv 0 s) (op : PagedOp cfg R) (hp : Proper s op) : Inv 0 (next s op) := by
  have hends := h.call_ends op hp.1
  have hcaught := hp.2
  rw [BlockManager.next]
  rw [raised] at hcaught
  cases hrun : call op s with
  | ok _ s' =>
    rw [hrun] at hends
    exact hends.2
  | error e s' =>
    rw [hrun] at hends hcaught
    exact hends.1 (hcaught e rfl)

theorem Reached.inv (hs : Reached s) : Inv 0 s := by
  obtain ⟨contexts, hwin, hs⟩ := hs
  exact hs.invariant (inv_new hwin) fun _ op hi hp => hi.next op hp

/-- In every state a run reaches the accounts are right. One more call, whatever it returns or raises,
    leaves them right and fails no assertion of the pool exactly when it does not take the branch of
    `_get_full_blocks_from_host_prefix_cache` where a hash of a complete load is published already: the
    assertion there raises with the blocks of the hit in no row. The hashes that are computed for one
    request are taken to be distinct. -/
theorem refCnt_accounts_iff (cfg : BlockManagerConfig H) (s : BlockManager cfg R) (hs : Reached s) :
    Accounts s ∧ ∀ op, InWindow s op → Distinct s op →
      (Accounts (next s op) ∧ raised s op ≠ some .poolAssertion ↔ HashClash s op = false) := by
  have h := hs.inv
  refine ⟨h.books.accounts, fun op hw hdistinct => ?_⟩
  have hends := h.call_ends op hw
  rw [next, raised]
  cases hrun : call op s with
  | ok _ s' =>
    rw [hrun] at hends
    exact iff_of_true ⟨hends.2.books.accounts, by simp⟩ hends.1
  | error e s' =>
    rw [hrun] at hends
    obtain ⟨hne, hcases⟩ := hends.2 hdistinct
    rcases hcases with ⟨hclash, hbooks⟩ | ⟨hclash, hleaks⟩
    · exact iff_of_true ⟨hbooks.accounts, by simpa using hne⟩ hclash
    · exact iff_of_false (fun hacc => hleaks.not_accounts hacc.1) (by simp [hclash])

instance (s : BlockManager cfg R) (op : PagedOp cfg R) : Decidable (InWindow s op) := by
  cases op <;> unfold InWindow <;> infer_instance

instance (s : BlockManager cfg R) (op : PagedOp cfg R) : Decidable (Proper s op) := by
  unfold Proper
  infer_instance

instance (s : BlockManager cfg R) (r : R) : Decidable (DistinctHashes s r) :=
  match hnew : cfg.computeBlockHashes (s.contexts r) (s.reqToHashes r) with
  | .error _ => .isTrue fun new h => by rw [hnew] at h; cases h
  | .ok new => decidable_of_iff (s.reqToHashes r ++ new).Nodup
      ⟨fun h new' h' => by rw [hnew] at h'; cases h'; exact h, fun h => h new hnew⟩

instance (s : BlockManager cfg R) (op : PagedOp cfg R) : Decidable (Distinct s op) := by
  cases op <;> unfold Distinct <;> infer_instance

def oneReplica (totalNumBlocks blockSize : ℕ) (blockSize_pos : 0 < blockSize) (hasConnector : Bool) :
    BlockManagerConfig (List ℤ) where
  totalNumBlocks := totalNumBlocks
  blockSize := blockSize
  blockSize_pos := blockSize_pos
  numReplicas := 1
  numReplicas_pos := Nat.one_pos
  enablePrefixCaching := true
  enableRuntimeChecks := false
  onlyUseConnectorLastLevelCache := false
  crossReplicaCopyEnabled := false
  hasConnector := hasConnector
  numDraftTokens := 0
  numDraftTokensPerStep := 0
  computeBlockHashes ctx known :=
    .ok (((List.range ((ctx.tokens.all.length - 1) / blockSize)).map fun i =>
      ctx.tokens.all.take ((i + 1) * blockSize)).drop known.length)

/-- The tokens of a request with the window `[start, stop)`. -/
def window (all : List ℤ) (start stop : ℕ) : PagedContext :=
  ⟨⟨{ TokenBuffer.initial all with processingRange := ⟨start, stop⟩ }, 0⟩, 0⟩

/-- A connector that has every block, or none, and completes its loads at once. -/
def connector {total blockSize : ℕ} {hpos : 0 < blockSize} {hasConnector : Bool} (resident : Bool) :
    PagedEnv (oneReplica total blockSize hpos hasConnector) where
  landed _ _ := false
  lookup desired := [desired.map fun _ => resident]
  lookup_length := by simp
  load := .complete

abbrev withHost : BlockManagerConfig (List ℤ) := oneReplica 4 1 (by decide) true

/-- Requests 0 and 2 have the prompt `[1, 2, 3]`, request 1 has `[7, 8, 9]`. -/
def prompts : ℕ → PagedContext := fun r => if r = 1 then window [7, 8, 9] 0 3 else window [1, 2, 3] 0 3

/-- Request 0 publishes two blocks and both are offloaded; only the first copy lands, so request 1 evicts only the
    first. -/
def evictHead : List (PagedOp withHost ℕ) :=
  [.claim 0 withHost.firstReplica, .alloc (connector false) 0, .forward 0 (window [1, 2, 3] 1 3), .step 0,
    .forward 0 (window [1, 2, 3] 2 3), .step 0, .offload (fun _ => false) withHost.firstReplica,
    .release 0, .pollTransfers (fun _ i => i = 0), .claim 1 withHost.firstReplica,
    .alloc (connector false) 1, .release 1, .claim 2 withHost.firstReplica]

def headEvicted : BlockManager withHost ℕ := evictHead.foldl next (new withHost prompts)

theorem headEvicted_reached (h : AllowedRun Proper next (new withHost prompts) evictHead) : Reached headEvicted := by
  refine ⟨prompts, fun r => ?_, Reachable.run _ .start h⟩
  rw [prompts]
  split_ifs <;> decide

/-- The connector loads `[1]` and `[1, 2]`, and `[1, 2]` is published on the device: request 2 has no
    block, and blocks 0 and 2 are counted once each for nobody. -/
theorem headEvicted_alloc_leaks : Reached headEvicted ∧ InWindow headEvicted (.alloc (connector true) 2) ∧
    Distinct headEvicted (.alloc (connector true) 2) ∧
    raised headEvicted (.alloc (connector true) 2) = some (.assertion "") ∧
    ((next headEvicted (.alloc (connector true) 2)).pools withHost.firstReplica).refCnt 0 = 1 ∧
    ((next headEvicted (.alloc (connector true) 2)).pools withHost.firstReplica).refCnt 2 = 1 ∧
    activeBlockIds withHost (next headEvicted (.alloc (connector true) 2)) withHost.firstReplica = [1] ∧
    ¬ Accounts (next headEvicted (.alloc (connector true) 2)) := by
  have hone : ((next headEvicted (.alloc (connector true) 2)).pools withHost.firstReplica).refCnt 0 = 1 := by
    decide +kernel
  refine ⟨headEvicted_reached (by decide +kernel), trivial, by decide +kernel, by decide +kernel, hone,
    by decide +kernel, by decide +kernel, fun hacc => ?_⟩
  have hzero := (hacc withHost.firstReplica).1 0 (by decide)
  revert hzero
  decide +kernel

/-- With nothing resident the same allocation leaves the accounts right. -/
theorem refCnt_accounts_iff_headEvicted :
    Accounts headEvicted ∧ Accounts (next headEvicted (.alloc (connector false) 2)) :=
  have h := refCnt_accounts_iff withHost headEvicted (headEvicted_reached (by decide +kernel))
  ⟨h.1, ((h.2 (.alloc (connector false) 2) trivial (by decide +kernel)).mpr (by decide +kernel)).1⟩

/-- The blocks of the request, its committed index and its processed tokens are as before. -/
def Restored (r : R) (s s' : BlockManager cfg R) : Prop :=
  s'.reqToBlocks r = s.reqToBlocks r ∧ s'.reqToCommittedIdx r = s.reqToCommittedIdx r ∧
    (s'.contexts r).tokens.processedLength = (s.contexts r).tokens.processedLength

/-- A call that raises `InsufficientBlocksError` restores the request exactly when no hit was spliced
    in, or the request had neither blocks nor processed tokens past its committed index: the splice gives
    those up, and the rollback only takes the hit back. -/
theorem failed_alloc_restored_iff (cfg : BlockManagerConfig H) (s : BlockManager cfg R) (hs : Reached s)
    (r : R) (ρ : cfg.Replica) (hr : s.reqToReplica.get? r = some ρ) (env : PagedEnv cfg)
    (e : BlockError R) (s' : BlockManager cfg R) (hrun : alloc cfg env r s = .error e s')
    (he : e.isInsufficient = true) : Restored r s s' ↔ (splices env r (polled env.landed s) = true →
      (s.reqToBlocks r).length = numCommittedBlocks cfg s r ∧
        (s.contexts r).tokens.processedLength = s.reqToCommittedIdx r) := by
  have hends := hs.inv.alloc_ends env hr
  rw [hrun] at hends
  obtain ⟨-, hidx, hrest⟩ := hends.1 he
  have hrows := (hs.inv.request r).rows
  cases hsplices : splices env r (polled env.landed s) with
  | false =>
    simp only [hsplices, Bool.false_eq_true, if_false] at hrest
    exact iff_of_true ⟨hrest.1, hidx, by rw [hrest.2]⟩ (by simp)
  | true =>
    simp only [hsplices, if_true] at hrest
    obtain ⟨hrow, hprocessed⟩ := hrest
    rw [Restored, hrow, hprocessed]
    simp only [true_implies, List.take_eq_self_iff]
    constructor
    · rintro ⟨hlen, -, hproc⟩
      exact ⟨le_antisymm hlen hrows, hproc.symm⟩
    · rintro ⟨hlen, hproc⟩
      exact ⟨hlen.le, hidx, hproc.symm⟩

abbrev fiveBlocks : BlockManagerConfig (List ℤ) := oneReplica 5 2 (by decide) false

def sharedStart : ℕ → PagedContext := fun r =>
  if r = 0 then window [1, 2, 3, 4, 5, 6, 7, 8, 9] 0 3 else window [1, 2, 3, 4, 5] 0 5

/-- Request 0 processes three tokens: one block is committed, the next half full. Request 1 gets the other blocks. -/
def fillChunk : List (PagedOp fiveBlocks ℕ) :=
  [.claim 0 fiveBlocks.firstReplica, .alloc (connector false) 0,
    .forward 0 (window [1, 2, 3, 4, 5, 6, 7, 8, 9] 3 9), .step 0, .claim 1 fiveBlocks.firstReplica,
    .alloc (connector false) 1]

/-- Request 1 publishes its second block, the one that request 0 has half full. -/
def publishTwin : List (PagedOp fiveBlocks ℕ) := [.forward 1 (window [1, 2, 3, 4, 5] 4 5), .step 1]

def chunkFilled : BlockManager fiveBlocks ℕ := fillChunk.foldl next (new fiveBlocks sharedStart)

def twinPublished : BlockManager fiveBlocks ℕ :=
  (fillChunk ++ publishTwin).foldl next (new fiveBlocks sharedStart)

theorem sharedStart_reached (ops : List (PagedOp fiveBlocks ℕ))
    (h : AllowedRun Proper next (new fiveBlocks sharedStart) ops) :
    Reached (ops.foldl next (new fiveBlocks sharedStart)) := by
  refine ⟨sharedStart, fun r => ?_, Reachable.run _ .start h⟩
  rw [sharedStart]
  split_ifs <;> decide

/-- The hit on the twin takes the half-full block away from request 0, and its third token: after the
    refusal it has one block and two processed tokens. -/
theorem twinPublished_alloc_not_restored :
    Reached twinPublished ∧ twinPublished.reqToReplica.get? 0 = some fiveBlocks.firstReplica ∧
    ∃ e s', alloc fiveBlocks (connector false) 0 twinPublished = .error e s' ∧ e.isInsufficient = true ∧
      twinPublished.reqToBlocks 0 = [0, 1] ∧ s'.reqToBlocks 0 = [0] ∧
      (twinPublished.contexts 0).tokens.processedLength = 3 ∧ (s'.contexts 0).tokens.processedLength = 2 := by
  refine ⟨sharedStart_reached (fillChunk ++ publishTwin) (by decide +kernel), by decide +kernel, ?_⟩
  obtain ⟨e, s', hrun, h⟩ := exists_of_raisesWith (r := alloc fiveBlocks (connector false) 0 twinPublished)
    (p := fun e s' => e.isInsufficient && (s'.reqToBlocks 0 = [0] &&
      (s'.contexts 0).tokens.processedLength = 2)) (by decide +kernel)
  simp only [Bool.and_eq_true, decide_eq_true_eq] at h
  exact ⟨e, s', hrun, h.1, by decide +kernel, h.2.1, by decide +kernel, h.2.2⟩

/-- Before the twin is published there is no hit, and the refused request is as it was. -/
theorem failed_alloc_restored_iff_chunkFilled : ∃ e s', alloc fiveBlocks (connector false) 0 chunkFilled = .error e s' ∧
      Restored 0 chunkFilled s' := by
  obtain ⟨e, s', hrun, he⟩ := exists_of_raisesWith (r := alloc fiveBlocks (connector false) 0 chunkFilled)
    (p := fun e _ => e.isInsufficient) (by decide +kernel)
  refine ⟨e, s', hrun, (failed_alloc_restored_iff fiveBlocks chunkFilled
    (sharedStart_reached fillChunk (by decide +kernel)) 0 fiveBlocks.firstReplica (by decide +kernel)
    (connector false) e s' hrun he).mpr fun h => absurd h (by decide +kernel)⟩

/-- **A forward writes into blocks of its own.** In every state a run reaches, a block behind the committed ones of a
    request is in its row once, in no other row, in no transfer, not free and not published. -/
theorem uncommitted_exclusive (s : BlockManager cfg R) (hs : Reached s) (r : R) (ρ : cfg.Replica)
    (hr : s.reqToReplica.get? r = some ρ) (b : ℕ) (hb : b ∈ (s.reqToBlocks r).drop (numCommittedBlocks cfg s r)) :
    (s.reqToBlocks r).count b = 1 ∧ (∀ r' ≠ r, s.reqToReplica.get? r' = some ρ → b ∉ s.reqToBlocks r') ∧
      b ∉ pinnedBlocks cfg s ρ ∧ b ∉ (s.pools ρ).freeBlockQueue ∧ ∀ h, (s.pools ρ).prefixCache.get? h ≠ some b := by
  have hbooks := hs.inv.books
  have hf := (hs.inv.request r).fresh ρ hr b hb
  obtain ⟨hone, hothers, hpins, -⟩ := hbooks.alone hr (List.mem_of_mem_drop hb) hf
  refine ⟨hone, fun r' hne hr' hmem => ?_, tally_eq_zero_iff.mp hpins, fun hfree => ?_, fun h hh => ?_⟩
  · have hle := tally_le_heldByOthers hr' hne b
    exact tally_eq_zero_iff.mp (Nat.le_zero.mp (hothers ▸ hle)) hmem
  · have hzero := (((hbooks.pools ρ).free_mem b).1 hfree).2
    rw [hf.1] at hzero
    cases hzero
  · rw [(hbooks.pools ρ).cache, hf.2] at hh
    cases hh

/-- The half-full block of request 0. -/
theorem uncommitted_exclusive_chunkFilled : 1 ∉ chunkFilled.reqToBlocks 1 :=
  (uncommitted_exclusive chunkFilled (sharedStart_reached fillChunk (by decide +kernel)) 0 fiveBlocks.firstReplica
    (by decide +kernel) 1 (by decide +kernel)).2.1 1 (by decide) (by decide +kernel)

end BlockManager

end MojoProse.KvCache
