import Mathlib.Algebra.BigOperators.Pi
import MojoProse.KvCache.JengaManagerInv

/-! Runs of the manager.

    The environment chooses the calls, what the connector answers in each, and how the context of a request changes
    between calls: by forwards, whose tokens fit in the rows, while it is claimed. `InsufficientBlocksError` is caught
    and the run goes on from the state the call left; another exception ends the run. -/

namespace MojoProse.KvCache
open Schemes Pipelines KVGroup KVTree

inductive ManagerOp (C H R : Type) where
  | claim (r : R) (replicaIdx : ℕ)
  | release (r : R)
  | alloc (env : CallEnv C H) (r : R)
  | forward (r : R) (ctx : TextContext)
  | step (r : R)
  | offload (complete : ℕ → Bool) (replicaIdx : ℕ)
  | pollTransfers (landed : ℕ → ℕ → Bool)
  | resetPrefixCache

namespace JengaBlockManager
variable {C H R : Type} [DecidableEq C] [DecidableEq H] [DecidableEq R]

def new (cfg : ManagerConfig C H) (contexts : R → TextContext) : JengaBlockManager C H R where
  pools _ := .new cfg.geometry
  rows _ _ := []
  requests _ := none
  contexts := contexts
  pendingTransfers _ := []
  pendingOffloads _ := []

variable (cfg : ManagerConfig C H)

def call : ManagerOp C H R → ManagerEff C H R Unit
  | .claim r replicaIdx => claim r replicaIdx
  | .release r => release cfg r
  | .alloc env r => do
    let _ ← alloc cfg env r
  | .forward r ctx => modify fun s => { s with contexts := Function.update s.contexts r ctx }
  | .step r => step cfg r
  | .offload complete replicaIdx => offload cfg complete replicaIdx
  | .pollTransfers landed => pollTransfers cfg landed
  | .resetPrefixCache => resetPrefixCache

variable (s : JengaBlockManager C H R)

/-- The tokens a forward of a claimed request has processed fit in its rows. -/
def FitsRows (r : R) (ctx : TextContext) : Prop :=
  s.processed r ≤ ctx.tokens.processedLength ∧
    ∀ c ∈ cfg.leaves, ctx.tokens.processedLength ≤ cfg.blockSize * (s.rows c r).length

def Proper (op : ManagerOp C H R) : Prop :=
  (match op with
    | .forward r ctx =>
      0 ≤ ctx.tokens.activeLength ∧ ((s.requests r).isNone ∨ FitsRows cfg s r ctx)
    | _ => True) ∧
  match call cfg op s with
  | .ok _ _ => True
  | .error e _ => e.isInsufficient = true

def next (op : ManagerOp C H R) : JengaBlockManager C H R :=
  match call cfg op s with
  | .ok _ s' => s'
  | .error _ s' => s'

instance (s : JengaBlockManager C H R) (r : R) (ctx : TextContext) : Decidable (FitsRows cfg s r ctx) :=
  inferInstanceAs (Decidable (_ ∧ _))

instance (s : JengaBlockManager C H R) (op : ManagerOp C H R) : Decidable (Proper cfg s op) := by
  unfold Proper
  refine @instDecidableAnd _ _ ?_ ?_
  · cases op <;> infer_instance
  · cases call cfg op s <;> infer_instance

def Reached (s : JengaBlockManager C H R) : Prop :=
  ∃ contexts : R → TextContext, (∀ r, 0 ≤ (contexts r).tokens.activeLength) ∧
    Reachable (new cfg contexts) (Proper cfg) (next cfg) s

variable {cfg} {s : JengaBlockManager C H R}

omit [DecidableEq R] in
theorem inv_new {contexts : R → TextContext} (hact : ∀ r, 0 ≤ (contexts r).tokens.activeLength) :
    Inv cfg (new cfg contexts) := by
  refine ⟨fun _ => JengaBlockPool.inv_new, hact, fun _ _ h => ?_, ∅, fun _ _ => rfl, fun ρ => ?_⟩
  · cases h
  · simp [pins, pinsOf, new]

theorem Inv.next (h : Inv cfg s) (op : ManagerOp C H R) (hp : Proper cfg s op) : Inv cfg (next cfg s op) := by
  have hends : Ends (call cfg op s) (fun _ s' => Inv cfg s')
      (fun e s' => e.isInsufficient = true → Inv cfg s') := by
    have hother : ∀ {r : EStateM.Result (KvError C R) (JengaBlockManager C H R) Unit},
        Ends r (fun _ s' => Inv cfg s') KvError.Other →
        Ends r (fun _ s' => Inv cfg s') (fun e s' => e.isInsufficient = true → Inv cfg s') := by
      intro r hr
      refine hr.raises fun e _ he h => ?_
      rw [he] at h
      cases h
    cases op with
    | claim r ρ => exact hother h.claim_ends
    | release r => exact hother h.release_ends
    | alloc env r =>
      cases hst : s.requests r with
      | none =>
        have herr : alloc cfg env r s = .error (.unclaimed r) s := by
          rw [alloc, bind_of_error (stateOf_error hst)]
        rw [call, bind_of_error herr]
        exact fun h => by cases h
      | some st => exact Ends.bind (h.alloc_ends _ hst) fun _ s' h' => h'.1
    | forward r ctx =>
      refine h.forward hp.1.1 (hp.1.2.imp (fun h => ?_) fun h => h.1)
      simpa using h
    | step r => exact hother h.step_ends
    | offload complete ρ =>
      exact hother ((offload_ends h.pools).imp (fun _ _ hm => h.of_pinMoves hm))
    | pollTransfers landed =>
      exact hother ((pollTransfers_ends _ h.pools h.pins_le).imp (fun _ _ hm => h.of_pinMoves hm))
    | resetPrefixCache => exact h.of_pinMoves (resetPrefixCache_pinMoves h.pools)
  have hcaught := hp.2
  rw [JengaBlockManager.next]
  cases hrun : call cfg op s with
  | ok _ s' =>
    rw [hrun] at hends
    exact hends
  | error e s' =>
    rw [hrun] at hends hcaught
    exact hends hcaught

theorem Reached.inv (hs : Reached cfg s) : Inv cfg s := by
  obtain ⟨contexts, hact, hs⟩ := hs
  exact hs.invariant (inv_new hact) fun _ op hi hp => hi.next op hp

/-- `true` slides over two tokens, `false` is full. A page is one token, and its hash the tokens up to it. -/
def twoLeaves (numHugeBlocks : ℕ) (two_le : 2 ≤ numHugeBlocks) : ManagerConfig Bool (List ℤ) where
  geometry := ⟨numHugeBlocks, fun _ => 2, two_le, fun _ => Nat.two_pos⟩
  leaves := [true, false]
  leaves_nodup := by decide
  mem_leaves := by decide
  group c := if c then .slidingWindow 2 (by decide) else .full
  blockSize := 1
  blockSize_pos := Nat.one_pos
  numReplicas := 1
  enablePrefixCaching := true
  onlyUseConnectorLastLevelCache := false
  crossReplicaCopyEnabled := false
  hasConnector := false
  maxNumInputTokens := none
  numDraftTokens := 0
  numDraftTokensPerStep := 0
  computeBlockHashes ctx known :=
    .ok (((List.range (ctx.tokens.all.length - 1)).map fun i => ctx.tokens.all.take (i + 1)).drop
      known.length)

def noConnector : CallEnv Bool (List ℤ) where
  landed _ _ := false
  lookup _ desired := desired.map fun _ => false
  lookup_length := by simp
  load := .refused

def prompt : TextContext := ⟨.initial [1, 2], 0⟩

def decoding : TextContext :=
  ⟨{ TokenBuffer.initial [1, 2] with all := [1, 2, 3], processingRange := ⟨2, 3⟩ }, 0⟩

/-- The prompt took a huge block for each leaf; the slide freed the first block of `true`, which keeps its commit. -/
def afterPrompt (n : ℕ) (two_le : 2 ≤ n) : JengaBlockManager Bool (List ℤ) Unit :=
  [.claim () 0, .alloc noConnector (), .forward () decoding, .step ()].foldl
    (next (twoLeaves n two_le)) (new (twoLeaves n two_le) fun _ => prompt)

theorem afterPrompt_reached {n : ℕ} {two_le : 2 ≤ n}
    (h : AllowedRun (Proper (twoLeaves n two_le)) (next (twoLeaves n two_le)) (new (twoLeaves n two_le) fun _ => prompt)
      [.claim () 0, .alloc noConnector (), .forward () decoding, .step ()]) :
    Reached (twoLeaves n two_le) (afterPrompt n two_le) :=
  ⟨fun _ => prompt, by decide, Reachable.run _ .start h⟩

/-- **No block in use is given away.** In every state a run reaches, the count of a block covers all rows of the requests
    on its replica, and the pins. A block in a row is in a huge block of its own leaf, and neither is free. -/
theorem rows_backed (cfg : ManagerConfig C H) (s : JengaBlockManager C H R) (hs : Reached cfg s) (ρ : ℕ) (S : Finset R)
    (hS : ∀ r ∈ S, ∃ st, s.requests r = some st ∧ st.replicaIdx = ρ) (c : C) (b : ℕ) (hb : b ≠ 0) :
    ∑ r ∈ S, (s.rows c r).count b + s.pins ρ (c, b) ≤ (s.pools ρ).refCnt c b ∧
    ∀ r ∈ S, b ∈ s.rows c r → (s.pools ρ).littleBlockType (cfg.geometry.hugeOf c b) = some c ∧
      b ∉ (s.pools ρ).freeLittleBlocks c ∧ cfg.geometry.hugeOf c b ∉ (s.pools ρ).freeHugeBlocks := by
  have h := hs.inv
  obtain ⟨claimed, hnone, hcov⟩ := h.covered
  have hsum : ∑ r ∈ S, (s.rows c r).count b ≤ (∑ r ∈ claimed, s.heldBy ρ r) (c, b) := by
    rw [Finset.sum_apply]
    refine (Finset.sum_le_sum fun r hr => ?_).trans (Finset.sum_le_sum_of_subset fun r hr => ?_)
    · obtain ⟨st, hst, rfl⟩ := hS r hr
      simp [heldBy_of_requests hst, refsOfRows, hb, rowsOf]
    · obtain ⟨st, hst, -⟩ := hS r hr
      exact by_contra fun hout => by simp [hnone r hout] at hst
  have hle := hcov ρ (c, b)
  simp only [live, hb, if_false, Pi.add_apply] at hle
  have hcount : ∑ r ∈ S, (s.rows c r).count b + s.pins ρ (c, b) ≤ (s.pools ρ).refCnt c b := by omega
  refine ⟨hcount, fun r hr hmem => ?_⟩
  have hpos : (s.pools ρ).refCnt c b ≠ 0 := by
    have hrow := Finset.single_le_sum (fun r _ => Nat.zero_le ((s.rows c r).count b)) hr
    have hone := List.count_pos_iff.2 hmem
    omega
  refine ⟨((h.pools ρ).typed_of_ref c b hpos).2, fun hfree => hpos ?_, fun hfree => hpos ?_⟩
  · exact (((h.pools ρ).little_mem c b).1 hfree).2.2
  · exact (((h.pools ρ).huge_mem _).1 hfree).2.1 c b rfl

theorem rows_backed_afterPrompt : 4 ∉ ((afterPrompt 4 (by decide)).pools 0).freeLittleBlocks false :=
  ((rows_backed (twoLeaves 4 (by decide)) (afterPrompt 4 (by decide)) (afterPrompt_reached (by decide +kernel)) 0 {()}
    (fun | (), _ => ⟨⟨0, [[1], [1, 2]], 2⟩, by decide +kernel, rfl⟩) false 4 (by decide)).2 () (by simp)
    (by decide +kernel)).2.1

section Window
variable {r : R} {st : RequestCacheState H} {c : C} {w : ℕ} {hw : 1 < w}

/-- Every slot that covers one of the `w - 1` tokens before the next forward holds a real block that is referenced. -/
def WindowHeld (cfg : ManagerConfig C H) (s : JengaBlockManager C H R) (r : R) (ρ : ℕ) (c : C) (w : ℕ) : Prop :=
  ∀ q, s.processed r - (w - 1) ≤ q → q < s.processed r →
    ∃ b, (s.rows c r)[q / cfg.blockSize]? = some b ∧ b ≠ 0 ∧ 0 < (s.pools ρ).refCnt c b

theorem Inv.windowHeld (h : Inv cfg s) (hst : s.requests r = some st) (hg : cfg.group c = .slidingWindow w hw)
    (hcap : s.processed r ≤ cfg.blockSize * (s.rows c r).length) : WindowHeld cfg s r st.replicaIdx c w := by
  intro q hlow hq
  have hrow := (h.request r st hst).rows c
  rw [hg] at hrow
  obtain ⟨b, hb, h0⟩ := hrow.window_real cfg.blockSize_pos hcap (by omega) hq
  refine ⟨b, hb, h0, Nat.pos_of_ne_zero ?_⟩
  exact ref_ne_zero_of_mem (le_trans (refsOf_le_refsOfRows (s.rowsOf r) c) (h.backed hst).rows_le)
    (List.mem_of_getElem? hb) h0

theorem stepAdvance_trade (h : Inv cfg s) (hst : s.requests r = some st) :
    Ends ((stepAdvance cfg r : ManagerEff C H R Unit) s)
      (fun _ s' => (∀ c, Advanced cfg.blockSize (cfg.group c) (s.processed r / cfg.blockSize)
          (s.rows c r) (s'.rows c r)) ∧ Trades (live (s.pools st.replicaIdx)) (refsOfRows (s.rowsOf r))
          (live (s'.pools st.replicaIdx)) (refsOfRows (s'.rowsOf r))) (fun _ _ => True) := by
  have hb := h.backed hst
  rw [stepAdvance, bind_of_ok (stateOf_ok hst), bind_get]
  refine Ends.zoom ((advanceRows_ends (s := ⟨s.pools st.replicaIdx, s.rowsOf r⟩) (hb.inv _)
    hb.rows_le).mono ?_ fun _ _ _ => trivial)
  rintro _ t ⟨-, hrows, ht⟩
  have hrowsOf : rowsOf { s with
      pools := Function.update s.pools st.replicaIdx t.pool
      rows := fun c => Function.update (s.rows c) r (t.rows c) } r = t.rows := by
    funext c
    simp [rowsOf]
  rw [hrowsOf]
  refine ⟨fun c => ?_, by simpa using ht⟩
  simpa [numFilledBlocks, processed, rowsOf] using hrows c

/-- Rows of a sliding-window leaf, in every state a run reaches: (1) null blocks, then real ones; (2) before a forward
    whose tokens fit, and after every allocation that returns, the window is held; (3) what `advance` nulls in a `step`
    is a run of slots, and the count of each block drops by the number of those slots it stood in. -/
theorem slidingWindow_rows_hold_window (cfg : ManagerConfig C H) (s : JengaBlockManager C H R)
    (hs : Reached cfg s) (r : R) (st : RequestCacheState H) (hst : s.requests r = some st) (c : C)
    (w : ℕ) (hw : 1 < w) (hg : cfg.group c = .slidingWindow w hw) :
    (∃ z real, s.rows c r = List.replicate z 0 ++ real ∧ ∀ b ∈ real, b ≠ 0) ∧
    (∀ ctx, FitsRows cfg s r ctx → WindowHeld cfg s r st.replicaIdx c w) ∧
    (∀ env complete s', alloc cfg env r s = .ok complete s' → WindowHeld cfg s' r st.replicaIdx c w) ∧
    ∀ s₁ s₂, stepCommit cfg r s = .ok () s₁ → stepAdvance cfg r s₁ = .ok () s₂ →
      ∃ j n, j ≤ n ∧ n ≤ (s₁.rows c r).length ∧ Nulled j n (s₁.rows c r) (s₂.rows c r) ∧
        ∀ b, b ≠ 0 → (s₁.pools st.replicaIdx).refCnt c b =
          (s₂.pools st.replicaIdx).refCnt c b + (((s₁.rows c r).take n).drop j).count b := by
  have h := hs.inv
  refine ⟨?_, fun ctx hfits => ?_, fun env complete s' hok => ?_, fun s₁ s₂ hok₁ hok₂ => ?_⟩
  · obtain ⟨z, hz, -⟩ := (h.request r st hst).rows c
    exact ⟨z, hz.eq_replicate⟩
  · exact h.windowHeld hst hg (hfits.1.trans (hfits.2 c (cfg.mem_leaves c)))
  · have hends := h.alloc_ends env hst
    rw [hok] at hends
    obtain ⟨h', ⟨st', hst', hρ⟩, hcap⟩ := hends
    rw [← hρ]
    exact h'.windowHeld hst' hg (hcap c)
  · have hends₁ := h.stepCommit_ends hst
    rw [hok₁] at hends₁
    obtain ⟨h₁, st₁, hst₁, hρ⟩ := hends₁
    have hends₂ := stepAdvance_trade h₁ hst₁
    rw [hok₂, hρ] at hends₂
    obtain ⟨hrows, ht⟩ := hends₂
    have hrow := hrows c
    rw [hg] at hrow
    obtain ⟨j, hj, hn, hnulled, -⟩ := hrow
    refine ⟨j, _, hj, hn, hnulled, fun b hb => ?_⟩
    have htrade := ht (c, b)
    have hcount := Nulled.count_eq hnulled hj hn hb
    simp only [live, refsOfRows, hb, if_false, rowsOf] at htrade
    omega

/-- Before the first decoding step, token 1 is in the window and its block is there. -/
theorem slidingWindow_rows_hold_window_afterPrompt :
    WindowHeld (twoLeaves 4 (by decide)) (afterPrompt 4 (by decide)) () 0 true 2 :=
  (slidingWindow_rows_hold_window (twoLeaves 4 (by decide)) (afterPrompt 4 (by decide))
    (afterPrompt_reached (by decide +kernel)) () ⟨0, [[1], [1, 2]], 2⟩ (by decide +kernel) true 2
    (by decide) rfl).2.1 decoding (by decide +kernel)

end Window

section Atomic
variable {r : R} {st : RequestCacheState H} {env : CallEnv C H} {s' : JengaBlockManager C H R}

/-- Apart from pins, counts are as before, and so are rows, committed index and token window of the request. -/
def Atomic (r : R) (st : RequestCacheState H) (s s' : JengaBlockManager C H R) : Prop :=
  (∀ ρ c b, b ≠ 0 → (s'.pools ρ).refCnt c b + s.pins ρ (c, b) =
    (s.pools ρ).refCnt c b + s'.pins ρ (c, b)) ∧
  (∀ c, s'.rows c r = s.rows c r) ∧
  (s'.requests r).map RequestCacheState.committedIdx = some st.committedIdx ∧
  s'.processed r = s.processed r

omit [DecidableEq R] in
theorem Moves.counts {ρ : ℕ} {leak : C × ℕ → ℕ} (hm : Moves cfg r ρ s 0 s' leak)
    (hrows : s'.rowsOf r = s.rowsOf r) (c : C) {b : ℕ} (hb : b ≠ 0) : (s'.pools ρ).refCnt c b + s.pins ρ (c, b) =
      (s.pools ρ).refCnt c b + s'.pins ρ (c, b) + leak (c, b) := by
  have h := hm.trade (c, b)
  rw [hrows] at h
  simp only [live, hb, if_false, Pi.add_apply, Pi.zero_apply] at h
  omega

omit [DecidableEq R] in
theorem Moves.atomic {ρ : ℕ} (hm : Moves cfg r ρ s 0 s' 0) (hrows : s'.rowsOf r = s.rowsOf r)
    {hashes : List H} (hst' : s'.requests r = some { st with hashes })
    (hp : s'.processed r = s.processed r) : Atomic r st s s' := by
  refine ⟨fun ρ' c b hb => ?_, fun c => congrFun hrows c, by rw [hst']; rfl, hp⟩
  rcases eq_or_ne ρ' ρ with rfl | hne
  · simpa using hm.counts hrows c hb
  · have h := hm.elsewhere ρ' hne (c, b)
    simpa [live, hb] using h

omit [DecidableEq C] [DecidableEq H] [DecidableEq R] in
theorem pins_null (s : JengaBlockManager C H R) (ρ : ℕ) (c : C) : s.pins ρ (c, 0) = 0 := by
  rw [pins, pinsOf]
  induction s.pendingTransfers ρ with
  | nil => rfl
  | cons t rest ih => simpa [refsOfRows] using ih

/-- A call that raises `InsufficientBlocksError` changes nothing exactly when it is the admission test
    that refuses and no hit was spliced over blocks past the committed index: the rollback of a splice
    gives those up. Staging for a connector hit and growing keep what they drew. -/
theorem failed_alloc_atomic_iff (cfg : ManagerConfig C H) (s : JengaBlockManager C H R)
    (hs : Reached cfg s) (r : R) (st : RequestCacheState H) (hst : s.requests r = some st)
    (env : CallEnv C H) (e : KvError C R) (s' : JengaBlockManager C H R)
    (hrun : alloc cfg env r s = .error e s') (he : e.isInsufficient = true) :
    Atomic r st s s' ↔ admissionRefuses cfg env r st.replicaIdx s = true ∧
      (splices cfg env r st.replicaIdx s = true → ∀ c, s.rows c r = []) := by
  have h := hs.inv
  have hok := h.request r st hst
  have hends := alloc_ends env hst rfl (h.backed hst)
  rw [hrun] at hends
  cases hends he with
  | staging refuses same leak ne_zero moves =>
    refine iff_of_false (fun ha => ne_zero ?_) (by simp [refuses])
    ext ⟨c, b⟩
    rcases eq_or_ne b 0 with rfl | hb
    · have htrade := moves.trade (c, 0)
      simp only [live, refsOfRows, Pi.add_apply, pins_null, if_true, Pi.zero_apply] at htrade ⊢
      omega
    · have h1 := moves.counts same.1 c hb
      have h2 := ha.1 st.replicaIdx c b hb
      rw [Pi.zero_apply]
      omega
  | refused refuses moves request =>
    cases hsp : splices cfg env r st.replicaIdx s with
    | false =>
      rw [hsp] at request
      obtain ⟨hrows, hctx, hashes, hst'⟩ := request
      refine iff_of_true (moves.atomic hrows hst' (by rw [processed, hctx]; rfl)) ?_
      simp [refuses]
    | true =>
      rw [hsp] at request
      obtain ⟨hfresh, hproc, -, hrows, hashes, hst'⟩ := request
      have hzero : st.committedIdx = 0 := by
        have := hok.committed_le
        omega
      have hempty : ∀ c, s'.rows c r = [] := by
        intro c
        obtain ⟨row, hrow⟩ := hrows c
        rw [hzero, Nat.zero_div, List.take_zero] at hrow
        exact hrow
      simp only [refuses, true_and, forall_const]
      constructor
      · intro ha c
        rw [← ha.2.1 c, hempty c]
      · intro hnil
        refine moves.atomic (funext fun c => ?_) hst' (by rw [hproc, hzero, hfresh])
        rw [rowsOf, rowsOf, hempty c, hnil c]
  | growing refuses moves s₁ reused grew longer =>
    refine iff_of_false (fun ha => ?_) (by simp [refuses])
    rw [Reused] at reused
    split_ifs at reused
    · -- the committed index has moved with the splice
      obtain ⟨-, ⟨n, m, hpos, ⟨hashes, hst₁⟩, -, -⟩, -⟩ := reused
      have hcommitted := ha.2.2.1
      rw [grew.1, hst₁] at hcommitted
      have hmoved := Option.some.inj hcommitted
      have := Nat.mul_pos hpos cfg.blockSize_pos
      simp only at hmoved
      omega
    · exact longer (funext fun c => by rw [rowsOf, ha.2.1 c, reused.1, rowsOf])

/-- One pristine huge block is left. The admission test counts on the free block of `true`, but `true`
    claims the huge block to spare its commit, and `false` finds none: `true` has grown by block 6. -/
theorem failed_alloc_grows_a_row : Reached (twoLeaves 4 (by decide)) (afterPrompt 4 (by decide)) ∧
    (afterPrompt 4 (by decide)).requests () = some ⟨0, [[1], [1, 2]], 2⟩ ∧
    ∃ e s', alloc (twoLeaves 4 (by decide)) noConnector () (afterPrompt 4 (by decide)) = .error e s' ∧
      e.isInsufficient = true ∧
      (afterPrompt 4 (by decide)).rows true () = [0, 3] ∧ s'.rows true () = [0, 3, 6] ∧
      ((afterPrompt 4 (by decide)).pools 0).refCnt true 6 = 0 ∧ (s'.pools 0).refCnt true 6 = 1 := by
  refine ⟨afterPrompt_reached (by decide +kernel), by decide +kernel, ?_⟩
  obtain ⟨e, s', hrun, h⟩ := exists_of_raisesWith
    (r := alloc (twoLeaves 4 (by decide)) noConnector () (afterPrompt 4 (by decide)))
    (p := fun e s' => e.isInsufficient && (s'.rows true () = [0, 3, 6] &&
      (s'.pools 0).refCnt true 6 = 1)) (by decide +kernel)
  simp only [Bool.and_eq_true, decide_eq_true_eq] at h
  exact ⟨e, s', hrun, h.1, by decide +kernel, h.2.1, by decide +kernel, h.2.2⟩

/-- With no huge block left the admission test refuses, and nothing has changed. -/
theorem failed_alloc_atomic_iff_afterPrompt :
    ∃ e s', alloc (twoLeaves 3 (by decide)) noConnector () (afterPrompt 3 (by decide)) = .error e s' ∧
      Atomic () ⟨0, [[1], [1, 2]], 2⟩ (afterPrompt 3 (by decide)) s' := by
  obtain ⟨e, s', hrun, he⟩ := exists_of_raisesWith
    (r := alloc (twoLeaves 3 (by decide)) noConnector () (afterPrompt 3 (by decide)))
    (p := fun e _ => e.isInsufficient) (by decide +kernel)
  refine ⟨e, s', hrun, (failed_alloc_atomic_iff (twoLeaves 3 (by decide)) (afterPrompt 3 (by decide))
    (afterPrompt_reached (by decide +kernel)) () ⟨0, [[1], [1, 2]], 2⟩ (by decide +kernel) noConnector
    e s' hrun he).mpr ⟨by decide +kernel, fun h => absurd h (by decide +kernel)⟩⟩

end Atomic

end JengaBlockManager

end MojoProse.KvCache
