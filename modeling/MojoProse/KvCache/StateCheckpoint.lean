import MojoProse.KvCache.StateManager

/-! When a forward that `alloc` granted can be recorded.

    `alloc` counts one block for a recurrent leaf until it has a live one, and none after that. A
    checkpoint draws the successor block after the forward, from what the pool then has left. -/

namespace MojoProse.KvCache
open Schemes Pipelines KVGroup Except JengaBlockPool Function JengaBlockManager

variable {C H R : Type}

namespace JengaBlockPool
variable [DecidableEq C] {g : Geometry C} {s : JengaBlockPool C H} {c : C} {bid : ℕ} {e : PoolError C}

theorem freeBlock_error (h : s.freeBlock g c bid = .error e) : e = .assertion "" := by
  rw [freeBlock] at h
  dsimp only at h
  split_ifs at h <;> exact (error.inj h).symm

variable [DecidableEq H]

theorem claimHugeBlock_error {huge : ℕ} (h : s.claimHugeBlock g huge c = .error e) : e = .assertion "" := by
  rw [claimHugeBlock] at h
  dsimp only at h
  split_ifs at h
  exact (error.inj h).symm

theorem takeFront_error (h : s.takeFront g c = .error e) : e = .valueError "No free blocks available" := by
  rw [takeFront] at h
  cases hfree : s.freeLittleBlocks c with
  | nil =>
    rw [hfree] at h
    exact (error.inj h).symm
  | cons bid rest =>
    rw [hfree] at h
    cases h

theorem claimFront_insufficient {c' : C} (h : s.claimFront g c = .error (.insufficientBlocks c')) :
    s.freeHugeBlocks = [] := by
  rw [claimFront] at h
  cases hfree : s.freeHugeBlocks with
  | nil => rfl
  | cons huge rest =>
    rw [hfree] at h
    dsimp only at h
    split at h
    · cases claimHugeBlock_error h
    · split_ifs at h
      · cases h
      · cases claimHugeBlock_error h

/-- `alloc_block` is out of blocks exactly when the cache has no free block and no huge block is free. -/
theorem allocBlock_insufficient_iff : (∃ c', s.allocBlock g c = .error (.insufficientBlocks c')) ↔
      s.freeLittleBlocks c = [] ∧ s.freeHugeBlocks = [] := by
  constructor
  · rintro ⟨c', h⟩
    rw [allocBlock] at h
    split_ifs at h with hclaim
    · have hhuge : s.freeHugeBlocks = [] := by
        cases hfront : s.claimFront g c with
        | error e =>
          rw [hfront] at h
          cases h
          exact claimFront_insufficient hfront
        | ok s1 =>
          rw [hfront] at h
          cases takeFront_error h
      refine ⟨hclaim.resolve_right fun hprefer => ?_, hhuge⟩
      simp [preferClaimHuge, hhuge] at hprefer
    · cases takeFront_error h
  · rintro ⟨hlittle, hhuge⟩
    refine ⟨c, ?_⟩
    rw [allocBlock, if_pos (.inl hlittle), claimFront, hhuge]
    rfl

theorem touch_error (h : s.touch g c bid = .error e) : e = .assertion "" := by
  rw [touch] at h
  dsimp only at h
  split_ifs at h
  · exact (error.inj h).symm
  · rcases bind_eq_error.mp h with hclaim | ⟨_, -, h⟩
    · exact claimHugeBlock_error hclaim
    · cases h
  · cases h

theorem commitIntoPrefixCache_error {h : H}
    (he : s.commitIntoPrefixCache h c bid = .error e) : ∃ m, e = .assertion m := by
  rw [commitIntoPrefixCache] at he
  split_ifs at he <;> exact ⟨_, (error.inj he).symm⟩

theorem getOrCommitIntoPrefixCache_error {h : H}
    (he : s.getOrCommitIntoPrefixCache g h c bid = .error e) : ∃ m, e = .assertion m := by
  rw [getOrCommitIntoPrefixCache] at he
  split_ifs at he
  · exact ⟨_, (error.inj he).symm⟩
  split at he
  · split_ifs at he
    rcases bind_eq_error.mp he with htouch | ⟨s1, -, he⟩
    · exact ⟨_, touch_error htouch⟩
    split_ifs at he
    · exact ⟨_, (error.inj he).symm⟩
    rcases bind_eq_error.mp he with hfree | ⟨_, -, he⟩
    · exact ⟨_, freeBlock_error hfree⟩
    · cases he
  · rcases bind_eq_error.mp he with hcommit | ⟨_, -, he⟩
    · exact commitIntoPrefixCache_error hcommit
    · cases he

end JengaBlockPool

namespace StateManager

abbrev isInsufficient : KvError C R → Bool := KvError.isInsufficient

theorem avoids_callPool {α : Type} {f : JengaBlockPool C H → Except (PoolError C) (α × JengaBlockPool C H)}
    (h : ∀ p e, f p = .error e → ∃ m, e = .assertion m) : Avoids isInsufficient (callPool f : PoolEff C H R α) := by
  intro p
  rw [callPool]
  cases hf : f p with
  | ok a => trivial
  | error e =>
    obtain ⟨m, rfl⟩ := h p e hf
    rfl

theorem avoids_stateOf (r : R) : Avoids isInsufficient (stateOf r : ManagerEff C H R (RequestCacheState H)) := by
  refine .bind .get fun s => ?_
  split
  · exact .throw rfl
  · exact .pure _

theorem avoids_computeHashes [DecidableEq R] (cfg : ManagerConfig C H) (r : R) :
    Avoids isInsufficient (computeHashesForRequest cfg r : ManagerEff C H R _) := by
  refine .bind (avoids_stateOf r) fun st => .bind .get fun s => ?_
  split
  · exact .throw rfl
  · exact .bind (.modify _) fun _ => .pure _

section
variable [DecidableEq C]

theorem avoids_free (g : Geometry C) (c : C) (bid : ℕ) : Avoids isInsufficient (free g c bid : PoolEff C H R Unit) := by
  refine avoids_callPool fun p e h => ?_
  rcases bind_eq_error.mp h with hfree | ⟨_, -, h⟩
  · exact ⟨_, freeBlock_error hfree⟩
  · cases h

theorem avoids_nullBelow (g : Geometry C) (c : C) : ∀ n, Avoids isInsufficient (nullBelow g c n : RowEff C H R Unit)
  | 0 => .pure _
  | n + 1 => by
    refine .bind .get fun s => ?_
    split
    · exact .throw rfl
    split_ifs
    · exact .pure _
    · exact .bind (.zoom (avoids_free g c _)) fun _ => .bind (.modify _) fun _ => avoids_nullBelow g c n

variable (cfg : StateConfig C H)

theorem avoids_forGroups {attention : C → RowEff C H R Unit} {state : C → StateGroup → RowEff C H R Unit}
    (ha : ∀ c, Avoids isInsufficient (attention c)) (hs : ∀ c kind, Avoids isInsufficient (state c kind)) :
    Avoids isInsufficient (forGroups cfg attention state) := by
  refine .forM fun c _ => .zoom ?_
  dsimp only
  split
  · exact ha c
  · exact hs c _

theorem avoids_advanceRows (numFilledBlocks : ℕ) :
    Avoids isInsufficient (advanceRows cfg numFilledBlocks : TreeEff C H R Unit) := by
  refine avoids_forGroups cfg (fun c => ?_) fun c kind => ?_
  · rw [advance]
    split
    · exact .pure _
    · exact avoids_nullBelow _ c _
  · cases kind with
    | scratch => exact .pure _
    | recurrent =>
      refine .bind .get fun s => .forM fun idx _ => .bind .get fun s' => ?_
      split
      · exact .throw rfl
      split_ifs
      · exact .pure _
      · exact .pure _
      · exact .bind (.zoom (avoids_free _ c _)) fun _ => .modify _

end

variable [DecidableEq C] [DecidableEq H]

theorem avoids_getOrCommit (g : Geometry C) (c : C) (h : H) (bid : ℕ) :
    Avoids isInsufficient (getOrCommit g c h bid : PoolEff C H R (Option ℕ)) :=
  avoids_callPool fun _ _ => getOrCommitIntoPrefixCache_error

theorem avoids_commitAt (g : Geometry C) (c : C) (hashes : List H) (idx : ℕ) :
    Avoids isInsufficient (commitAt g c hashes idx : RowEff C H R Unit) := by
  refine .bind .get fun s => ?_
  split
  · exact .throw rfl
  split_ifs
  · exact .pure _
  split
  · exact .throw rfl
  · refine .bind (.zoom (avoids_getOrCommit g c _ _)) fun twin => ?_
    split
    · exact .pure _
    · exact .modify _

variable (cfg : StateConfig C H)

theorem avoids_commitRows (hashes : List H) (lastBlock : ℕ) :
    Avoids isInsufficient (commitRows cfg hashes lastBlock : TreeEff C H R Unit) := by
  refine avoids_forGroups cfg (fun c => ?_) fun c kind => ?_
  · exact .bind .get fun s => .forM fun idx _ => avoids_commitAt _ c hashes idx
  · cases kind with
    | scratch => exact .pure _
    | recurrent =>
      refine .bind .get fun s => .forM fun idx _ => .bind .get fun s' => ?_
      split
      · exact .throw rfl
      split_ifs
      · exact .pure _
      · exact avoids_commitAt _ c hashes idx

/-- Leaf after leaf, what a checkpoint draws from is not used up: the leaf has a free block, or a huge block is free. -/
def Successors (processedLength : ℕ) (rows : C → List ℕ) : List C → JengaBlockPool C H → Prop
  | [], _ => True
  | c :: cs, p =>
    if cfg.state c = some .recurrent ∧
        KVState.drawsSuccessor c cfg.blockSize processedLength p (rows c) then
      (p.freeLittleBlocks c ≠ [] ∨ p.freeHugeBlocks ≠ []) ∧
        ∀ bid p', p.allocBlock cfg.geometry c = .ok (bid, p') →
          Successors processedLength rows cs p'
    else Successors processedLength rows cs p

variable {cfg}

theorem successors_congr {n : ℕ} {rows rows' : C → List ℕ} :
    ∀ {cs : List C} {p : JengaBlockPool C H}, (∀ c ∈ cs, rows c = rows' c) →
      (Successors cfg n rows cs p ↔ Successors cfg n rows' cs p)
  | [], _, _ => Iff.rfl
  | c :: cs, p, h => by
    have hrest : ∀ p, Successors cfg n rows cs p ↔ Successors cfg n rows' cs p :=
      fun p => successors_congr (List.forall_mem_cons.mp h).2
    simp [Successors, h c (by simp), hrest]

/-- The turn of one leaf in the loop of the checkpoints. -/
def checkpointLeaf (cfg : StateConfig C H) (n : ℕ) (c : C) : TreeEff C H R Unit :=
  KVTree.onLeaf c (match cfg.state c with
    | none => return
    | some kind => do
      let _ ← KVState.checkpoint cfg.geometry c cfg.blockSize n kind)

theorem checkpointLeaf_idle {n : ℕ} {c : C} {t : TreeState C H} (h : ¬ (cfg.state c = some .recurrent ∧
      KVState.drawsSuccessor c cfg.blockSize n t.pool (t.rows c))) :
    (checkpointLeaf cfg n c : TreeEff C H R Unit) t = .ok () t := by
  have hsame : (⟨t.pool, update t.rows c (t.rows c)⟩ : TreeState C H) = t := by
    rw [update_eq_self]
  rw [checkpointLeaf]
  cases hstate : cfg.state c with
  | none => exact congrArg _ hsame
  | some kind =>
    cases kind with
    | scratch => exact congrArg _ hsame
    | recurrent =>
      have hdraws : KVState.drawsSuccessor c cfg.blockSize n t.pool (t.rows c) = false := by
        simpa [hstate] using h
      have hrun : (KVState.checkpoint cfg.geometry c cfg.blockSize n .recurrent :
          RowEff C H R _) ⟨t.pool, t.rows c⟩ = .ok none ⟨t.pool, t.rows c⟩ := by
        simp only [KVState.checkpoint, bind_get, hdraws]
        rfl
      refine (zoom_of_ok (t := ⟨t.pool, t.rows c⟩) ?_).trans (congrArg _ hsame)
      exact bind_of_ok hrun

/-- A leaf that draws: what the pool says of the draw. -/
theorem checkpointLeaf_draws {n : ℕ} {c : C} {t : TreeState C H} (hstate : cfg.state c = some .recurrent)
    (hdraws : KVState.drawsSuccessor c cfg.blockSize n t.pool (t.rows c) = true) :
    (∃ bid p' row, t.pool.allocBlock cfg.geometry c = .ok (bid, p') ∧
      (checkpointLeaf cfg n c : TreeEff C H R Unit) t = .ok () ⟨p', update t.rows c row⟩) ∨
    ∃ e t', t.pool.allocBlock cfg.geometry c = .error e ∧
      (checkpointLeaf cfg n c : TreeEff C H R Unit) t = .error (.pool e) t' := by
  have hleaf : ((do let _ ← KVState.checkpoint cfg.geometry c cfg.blockSize n .recurrent) : RowEff C H R Unit)
      ⟨t.pool, t.rows c⟩ = ((do
        let bid ← onPool (KVGroup.alloc cfg.geometry c)
        modify fun s => { s with row := KVState.succeed (n / cfg.blockSize) bid s.row }) : RowEff C H R Unit)
          ⟨t.pool, t.rows c⟩ := by
    simp only [KVState.checkpoint, bind_assoc, bind_get, hdraws, if_true, pure_bind]
    rfl
  rw [checkpointLeaf, hstate]
  cases halloc : t.pool.allocBlock cfg.geometry c with
  | ok drawn =>
    obtain ⟨bid, p'⟩ := drawn
    have hpool : (onPool (KVGroup.alloc cfg.geometry c) : RowEff C H R ℕ) ⟨t.pool, t.rows c⟩ =
        .ok bid ⟨p', t.rows c⟩ := zoom_of_ok (by simp [KVGroup.alloc, callPool, halloc])
    exact .inl ⟨bid, p', _, rfl, zoom_of_ok (s := t) (t := RowState.mk p' _) (hleaf.trans (bind_of_ok hpool))⟩
  | error e =>
    have hpool : (onPool (KVGroup.alloc cfg.geometry c) : RowEff C H R ℕ) ⟨t.pool, t.rows c⟩ =
        .error (.pool e) ⟨t.pool, t.rows c⟩ := zoom_of_error (by simp [KVGroup.alloc, callPool, halloc])
    exact .inr ⟨e, _, rfl, zoom_of_error (s := t) (t := ⟨t.pool, t.rows c⟩) (hleaf.trans (bind_of_error hpool))⟩

/-- The loop of the checkpoints is out of blocks exactly when a leaf finds what it draws from used up. -/
theorem checkpointLeaves_ends (n : ℕ) : ∀ (cs : List C) (t : TreeState C H), cs.Nodup →
    Ends ((cs.forM (checkpointLeaf cfg n) : TreeEff C H R Unit) t) (fun _ _ => Successors cfg n t.rows cs t.pool)
      (fun e _ => e.isInsufficient = false ↔ Successors cfg n t.rows cs t.pool)
  | [], _, _ => trivial
  | c :: cs, t, hnd => by
    obtain ⟨hfresh, hnd⟩ := List.nodup_cons.mp hnd
    rw [Successors]
    show Ends ((checkpointLeaf cfg n c >>= fun _ => cs.forM (checkpointLeaf cfg n)) t) _ _
    split_ifs with hdraws
    · obtain ⟨bid, p', row, halloc, hrun⟩ | ⟨e, t', halloc, hrun⟩ := checkpointLeaf_draws (R := R) hdraws.1 hdraws.2
      · -- the draw went through, so there was something to draw from
        have hroom : t.pool.freeLittleBlocks c ≠ [] ∨ t.pool.freeHugeBlocks ≠ [] := by
          by_contra hnone
          push Not at hnone
          obtain ⟨c', herr⟩ := allocBlock_insufficient_iff.mpr hnone
          rw [halloc] at herr
          cases herr
        have hrest : Successors cfg n (update t.rows c row) cs p' ↔ Successors cfg n t.rows cs p' :=
          successors_congr fun c' hc' =>
            update_of_ne (ne_of_mem_of_not_mem hc' hfresh) _ _
        have hdrawn : (∀ bid p', t.pool.allocBlock cfg.geometry c = .ok (bid, p') → Successors cfg n t.rows cs p') ↔
            Successors cfg n t.rows cs p' := by simp [halloc]
        rw [bind_of_ok hrun, and_iff_right hroom, hdrawn, ← hrest]
        exact checkpointLeaves_ends n cs _ hnd
      · rw [bind_of_error hrun]
        have hvacuous : ∀ bid p', t.pool.allocBlock cfg.geometry c = .ok (bid, p') →
            Successors cfg n t.rows cs p' := by simp [halloc]
        rw [and_iff_left hvacuous]
        show (KvError.pool e).isInsufficient = false ↔ _
        have hinsufficient := allocBlock_insufficient_iff (g := cfg.geometry) (s := t.pool) (c := c)
        rw [halloc] at hinsufficient
        rw [← not_iff_not, not_or, not_not, not_not, ← hinsufficient]
        cases e <;> simp [KvError.isInsufficient]
    · rw [bind_of_ok (checkpointLeaf_idle hdraws)]
      exact checkpointLeaves_ends n cs t hnd

variable [DecidableEq R]

theorem avoids_record (r : R) :
    Avoids isInsufficient (do stepCommit cfg r; stepAdvance cfg r) := by
  refine .bind (.bind (avoids_stateOf r) fun st => ?_) fun _ =>
    .bind (avoids_stateOf r) fun st => .bind .get fun s => .zoom (avoids_advanceRows cfg _)
  split_ifs
  · exact .bind (avoids_computeHashes _ r) fun hashes => .bind (avoids_stateOf r) fun st' =>
      .bind .get fun s' => .bind (.zoom (avoids_commitRows cfg _ _)) fun _ => .modify _
  · exact .pure _

/-- A step is out of blocks exactly when a checkpoint finds what it draws from used up, whatever `alloc`
    granted before. -/
theorem step_recorded_iff (cfg : StateConfig C H) (s : JengaBlockManager C H R) (r : R)
    (st : RequestCacheState H) (hst : s.requests r = some st) :
    (∀ e s', step cfg r s = .error e s' → e.isInsufficient = false) ↔
      Successors cfg (s.contexts r).tokens.processedLength (fun c => s.rows c r) cfg.leaves
        (s.pools st.replicaIdx) := by
  have hstate : (stateOf r : ManagerEff C H R _) s = .ok st s := by
    simp only [stateOf, bind_get, hst]
    rfl
  generalize hsucc : Successors cfg (s.contexts r).tokens.processedLength (fun c => s.rows c r) cfg.leaves
    (s.pools st.replicaIdx) = succ
  have hends : Ends (stepCheckpoint cfg r s) (fun _ _ => succ) (fun e _ => e.isInsufficient = false ↔ succ) := by
    rw [stepCheckpoint, bind_of_ok hstate, bind_get, ← hsucc]
    refine Ends.zoom ?_
    exact checkpointLeaves_ends _ cfg.leaves ⟨s.pools st.replicaIdx, fun c => s.rows c r⟩ cfg.leaves_nodup
  cases hcheck : stepCheckpoint cfg r s with
  | ok _ s₁ =>
    rw [hcheck] at hends
    refine iff_of_true (fun e s' hstep => ?_) hends
    have hrecord : Ends ((do stepCommit cfg r; stepAdvance cfg r) s₁) _ _ := avoids_record r s₁
    rw [step, bind_of_ok hcheck] at hstep
    rw [hstep] at hrecord
    exact hrecord
  | error e s₁ =>
    rw [hcheck] at hends
    have hstep : step cfg r s = .error e s₁ := bind_of_error hcheck
    refine Iff.trans ⟨fun h => h e s₁ hstep, fun h e' s' hstep' => ?_⟩ hends
    rw [hstep] at hstep'
    cases hstep'
    exact h

def oneState (numHugeBlocks : ℕ) (two_le : 2 ≤ numHugeBlocks) : StateConfig Unit Unit where
  geometry := ⟨numHugeBlocks, fun _ => 1, two_le, fun _ => Nat.one_pos⟩
  leaves := [()]
  leaves_nodup := List.nodup_singleton ()
  mem_leaves := List.mem_singleton_self
  group _ := .full
  blockSize := 1
  blockSize_pos := Nat.one_pos
  numReplicas := 1
  enablePrefixCaching := false
  onlyUseConnectorLastLevelCache := false
  crossReplicaCopyEnabled := false
  hasConnector := false
  maxNumInputTokens := none
  numDraftTokens := 0
  numDraftTokensPerStep := 0
  computeBlockHashes _ _ := .ok []
  state _ := some .recurrent
  no_connector := rfl

def oneToken : TextContext := ⟨.initial [1], 0⟩

def oneProcessed : TextContext :=
  ⟨{ TokenBuffer.initial [1] with all := [1, 2], processingRange := ⟨1, 2⟩ }, 0⟩

/-- `claim`, `alloc` and the forward of the prompt. -/
def granted (cfg : StateConfig Unit Unit) : ManagerEff Unit Unit Unit Unit := do
  claim () 0
  alloc cfg (fun _ _ => false) ()
  modify fun s => { s with contexts := fun _ => oneProcessed }

def newState (cfg : StateConfig Unit Unit) : JengaBlockManager Unit Unit Unit where
  pools _ := .new cfg.geometry
  rows _ _ := []
  requests _ := none
  contexts _ := oneToken
  pendingTransfers _ := []
  pendingOffloads _ := []

/-- With a second block to give out the forward is recorded. -/
theorem step_recorded_iff_two_blocks :
    ∃ s, granted (oneState 3 (by decide)) (newState (oneState 3 (by decide))) = .ok () s ∧
      ∀ e s', step (oneState 3 (by decide)) () s = .error e s' → e.isInsufficient = false :=
  ⟨_, rfl, (step_recorded_iff _ _ () ⟨0, [], 0⟩ (by decide +kernel)).mpr
    ⟨.inr (by decide +kernel), fun _ _ _ => trivial⟩⟩

/-- The one block was granted, the checkpoint at the end of the prompt asks for a second one. -/
theorem granted_forward_not_recorded :
    ∃ s e s', granted (oneState 2 (by decide)) (newState (oneState 2 (by decide))) = .ok () s ∧
      step (oneState 2 (by decide)) () s = .error e s' ∧ e.isInsufficient = true :=
  ⟨_, _, _, rfl, rfl, rfl⟩

end StateManager

end MojoProse.KvCache
