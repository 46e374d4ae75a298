import MojoProse.KvCache.BlockManagerInv

/-! What each call of the manager leaves.

    A call starts with nothing in hand. A hit is in hand from the lookups to its splice into the row,
    and the only way to lose it there is the assertion on the hashes of a complete load. -/

namespace MojoProse.KvCache.BlockManager
open Schemes Pipelines BlockPool List Function Ends Nat TokenBuffer
variable {H R : Type} {cfg : BlockManagerConfig H} {s s' s'' : BlockManager cfg R}
  {r r' : R} {ρ ρ' : cfg.Replica} {hand : cfg.Replica → ℕ → ℕ} {f : TokenBuffer → Except String TokenBuffer}
  {blocks : List ℕ}

def inHand (ρ : cfg.Replica) (a : ℕ → ℕ) : cfg.Replica → ℕ → ℕ := update 0 ρ a

@[simp] theorem inHand_self (ρ : cfg.Replica) (a : ℕ → ℕ) : inHand ρ a ρ = a := Function.update_self ..

@[simp] theorem inHand_zero (ρ : cfg.Replica) : inHand ρ 0 = 0 := Function.update_eq_self ρ 0

@[simp] theorem update_zero (ρ : cfg.Replica) (a : ℕ → ℕ) : update (0 : cfg.Replica → ℕ → ℕ) ρ a = inHand ρ a := rfl

@[simp] theorem update_inHand (ρ : cfg.Replica) (a a' : ℕ → ℕ) :
    update (inHand ρ a) ρ a' = inHand ρ a' := update_idem ..

structure SameRequests (s s' : BlockManager cfg R) : Prop where
  replica : s'.reqToReplica = s.reqToReplica
  blocks : s'.reqToBlocks = s.reqToBlocks
  committed : s'.reqToCommittedIdx = s.reqToCommittedIdx
  contexts : s'.contexts = s.contexts

theorem SameRequests.refl (s : BlockManager cfg R) : SameRequests s s := ⟨rfl, rfl, rfl, rfl⟩

theorem SameRequests.trans (h : SameRequests s s') (h' : SameRequests s' s'') : SameRequests s s'' :=
  ⟨h'.replica.trans h.replica, h'.blocks.trans h.blocks, h'.committed.trans h.committed, h'.contexts.trans h.contexts⟩

/-- Neither `InsufficientBlocksError` nor an assertion of the pool. -/
def IsOther (e : BlockError R) : Prop :=
  e ≠ .poolAssertion ∧ e.isInsufficient = false

theorem IsOther.assertion (m : String) : IsOther (.assertion m : BlockError R) := ⟨by simp, rfl⟩

theorem IsOther.valueError (m : String) : IsOther (.valueError m : BlockError R) := ⟨by simp, rfl⟩

section

variable [DecidableEq R]

theorem replicaOf_ok (hr : s.reqToReplica.get? r = some ρ) : replicaOf r s = .ok ρ s := by
  rw [replicaOf, bind_get]
  simp only [hr]
  rfl

theorem replicaOf_error (hr : s.reqToReplica.get? r = none) : replicaOf r s = .error (.unclaimed r) s := by
  rw [replicaOf, bind_get]
  simp only [hr]
  rfl

/-- The requests other than `r` are in order. -/
def OthersOk (s : BlockManager cfg R) (r : R) : Prop := ∀ r' ≠ r, RequestOk s r'

abbrev withTokens (s : BlockManager cfg R) (r : R) (tokens : TokenBuffer) : BlockManager cfg R :=
  { s with contexts := update s.contexts r { s.contexts r with tokens } }

theorem onTokens_ok {tokens : TokenBuffer}
    (hf : f (s.contexts r).tokens = .ok tokens) : onTokens r f s = .ok () (withTokens s r tokens) := by
  rw [onTokens, bind_get]
  simp only [hf]
  rfl

theorem onTokens_error {m : String}
    (hf : f (s.contexts r).tokens = .error m) : onTokens r f s = .error (.valueError m) s := by
  rw [onTokens, bind_get]
  simp only [hf]
  rfl

theorem OthersOk.withTokens (h : OthersOk s r) (tokens : TokenBuffer) :
    OthersOk (withTokens s r tokens) r := fun r' hne =>
  (h r' hne).congr (update_of_ne hne _ _) rfl rfl rfl fun _ _ _ _ hf => hf

abbrev withCommittedIdx (s : BlockManager cfg R) (r : R) (n : ℕ) : BlockManager cfg R :=
  { s with reqToCommittedIdx := update s.reqToCommittedIdx r n }

theorem OthersOk.withRequest (h : OthersOk s r) (l : List ℕ) (n : ℕ) :
    OthersOk (withCommittedIdx (withBlocks s r l) r n) r := fun r' hne =>
  (h r' hne).congr rfl (update_of_ne hne _ _) (update_of_ne hne _ _) rfl fun _ _ _ _ hf => hf

theorem RequestOk.of_committed (hr : s.reqToReplica.get? r = some ρ)
    (hwin : (s.contexts r).tokens.processingRange.start ≤ (s.contexts r).tokens.processingRange.stop)
    (hle : s.reqToCommittedIdx r ≤ (s.contexts r).tokens.processedLength)
    (halign : cfg.blockSize ∣ s.reqToCommittedIdx r)
    (hrow : (s.reqToBlocks r).length = numCommittedBlocks cfg s r) : RequestOk s r := by
  refine ⟨hwin, hle, halign, hrow.ge, fun ρ _ b hb => ?_, fun hnone => ?_⟩
  · rw [drop_eq_nil_of_le hrow.le] at hb
    cases hb
  · rw [hr] at hnone
    cases hnone

end

variable [DecidableEq H] [DecidableEq R]

theorem Books.tally_active (h : Books 0 s) (ρ : cfg.Replica) : tally (activeBlockIds cfg s ρ) = (s.pools ρ).refCnt := by
  rw [h.refs ρ, activeBlockIds, tally_append]
  rfl

theorem Books.mem_active (h : Books 0 s) (ρ : cfg.Replica) (b : ℕ) :
    b ∈ activeBlockIds cfg s ρ ↔ (s.pools ρ).refCnt b ≠ 0 := by
  rw [← h.tally_active, Ne, tally_eq_zero_iff, not_not]

/-- The checks of the pool pass; those on the commits of the request may not. -/
theorem Books.assertRuntimeInvariants_ends (h : Books 0 s) : Ends (assertRuntimeInvariants cfg r s) (fun _ s' => s' = s)
      (fun e s' => s' = s ∧ e = .assertion "") := by
  have hact : ((finRange cfg.numReplicas).any fun ρ =>
      (activeBlockIds cfg s ρ).any fun b => (s.pools ρ).refCnt b = 0) = false := by
    simp only [any_eq_false]
    rintro ρ - hany
    obtain ⟨b, hb, hzero⟩ := any_eq_true.mp hany
    exact (h.mem_active ρ b).mp hb (of_decide_eq_true hzero)
  have hpools : Ends (((finRange cfg.numReplicas).forM fun ρ =>
      onReplica ρ (BlockPool.assertRuntimeInvariants cfg.enableRuntimeChecks cfg.totalNumBlocks
        (activeBlockIds cfg s ρ)) : Eff cfg R Unit) s) (fun _ s' => s' = s)
      (fun e s' => s' = s ∧ e = .assertion "") := by
    refine forM (I := fun _ s' => s' = s) ?_ _ s rfl
    rintro ρ - _ rfl
    have hok := BlockPool.assertRuntimeInvariants_ok (R := R) (h.pools ρ)
      ((h.pools ρ).free_add_active (h.mem_active ρ)) cfg.enableRuntimeChecks
    rw [onReplica_of_ok hok, withPool, update_eq_self]
    exact rfl
  rw [assertRuntimeInvariants]
  split_ifs with henabled
  · rw [bind_get]
    simp only [hact, Bool.false_eq_true, if_false]
    refine bind hpools ?_
    rintro _ _ rfl
    split_ifs
    · exact ⟨rfl, rfl⟩
    · exact ⟨rfl, rfl⟩
    · exact ⟨rfl, rfl⟩
    · exact rfl
  · exact rfl

theorem Inv.pollReplica_ok (h : Inv 0 s) (landed : cfg.Replica → ℕ → Bool) (ρ : cfg.Replica) :
    ∃ s', pollReplica cfg landed ρ s = .ok () s' ∧ Inv 0 s' ∧ SameRequests s s' ∧ s'.reqToHashes = s.reqToHashes := by
  obtain ⟨still, p', hok, hi', hd, hsub⟩ := pollPending_ok (landed ρ) (s.pendingTransfers ρ) 0
    (h.books.pools ρ) (h.books.pins_le ρ) (h.books.matched ρ)
  refine ⟨withTransfers (withPool s ρ p') ρ still, ?_, ?_, ⟨rfl, rfl, rfl, rfl⟩, rfl⟩
  · rw [pollReplica, bind_get, bind_of_ok (onReplica_of_ok hok)]
    rfl
  · have h' := h.dealPins (a := 0) hd hi' rfl rfl fun t ht => h.books.matched ρ t (hsub t ht)
    rwa [update_zero, inHand_zero] at h'

theorem Inv.pollTransfers_ends (h : Inv 0 s) (landed : cfg.Replica → ℕ → Bool) : Ends (pollTransfers cfg landed s)
      (fun _ s' => Inv 0 s' ∧ SameRequests s s' ∧ s'.reqToHashes = s.reqToHashes) (fun _ _ => False) := by
  refine forM (I := fun _ s' => Inv 0 s' ∧ SameRequests s s' ∧ s'.reqToHashes = s.reqToHashes) ?_ _ s ⟨h, .refl s, rfl⟩
  rintro ρ - s1 ⟨h1, hsame1, hhash1⟩
  obtain ⟨s2, hok, h2, hsame2, hhash2⟩ := h1.pollReplica_ok landed ρ
  rw [hok]
  exact ⟨h2, hsame1.trans hsame2, hhash2.trans hhash1⟩

/-- A transfer pins its blocks; `w` is what the pool had of them in hand. -/
theorem Inv.trackTransfer_ok (h : Inv hand s) (commitHashes : Option (List H))
    {p' : BlockPool H} {w v : ℕ → ℕ} (hok : (blocks.forM touch : BlockPool.Eff H R Unit) (s.pools ρ) = .ok () p')
    (hi' : p'.Inv cfg.totalNumBlocks) (hd : Deals (s.pools ρ) w p' (w + tally blocks))
    (hw : hand ρ = w + v) (hm : Matched ⟨blocks, commitHashes⟩) :
    ∃ s', trackTransfer cfg ρ blocks commitHashes s = .ok () s' ∧ Inv hand s' ∧ SameRequests s s' := by
  rw [trackTransfer]
  split_ifs with hne
  · rw [bind_of_ok (onReplica_of_ok hok)]
    refine ⟨withTransfers (withPool s ρ p') ρ (s.pendingTransfers ρ ++ [⟨blocks, commitHashes⟩]), rfl, ?_,
      ⟨rfl, rfl, rfl, rfl⟩⟩
    have hbef : pins s ρ + hand ρ = w + (pins s ρ + v) := by
      rw [hw]
      ac_rfl
    have hafter : pinsOf (s.pendingTransfers ρ ++ [⟨blocks, commitHashes⟩]) + hand ρ =
        w + tally blocks + (pins s ρ + v) := by
      rw [pinsOf_concat, hw, pins]
      ac_rfl
    have h' := h.dealPins hd hi' hbef hafter fun t ht => by
      rcases mem_append.mp ht with ht | ht
      · exact h.books.matched ρ t ht
      · rwa [mem_singleton.mp ht]
    rwa [update_eq_self] at h'
  · exact ⟨s, rfl, h, .refl s⟩

/-- What the lookups brought is in hand, and what was loaded is nobody else's. -/
structure Holding (ρ : cfg.Replica) (staged : Staged (H := H)) (s : BlockManager cfg R) : Prop where
  inv : Inv (inHand ρ (tally (staged.deviceBlocks ++ staged.loadedBlocks))) s
  length_eq : staged.loadedHashes.length = staged.loadedBlocks.length
  nodup : staged.loadedBlocks.Nodup
  fresh : ∀ b ∈ staged.loadedBlocks, (s.pools ρ).Fresh b

theorem Inv.stageFullBlocks_ends (h : Inv 0 s) (env : PagedEnv cfg) : Ends (stageFullBlocks cfg env r ρ s)
      (fun staged s' => Holding ρ staged s' ∧ SameRequests s s' ∧
        ((s.reqToHashes r).Nodup → staged.loadedHashes.Nodup) ∧ (staged.loadedBlocks ≠ [] → env.load ≠ .refused))
      (fun e _ => e = .poolAssertion ∧ ¬ (s.reqToHashes r).Nodup) := by
  rw [stageFullBlocks, bind_get]
  set uncommitted := (s.reqToHashes r).drop (numCommittedBlocks cfg s r) with huncommitted
  have hnodup : (s.reqToHashes r).Nodup → uncommitted.Nodup := fun hnd =>
    hnd.sublist (drop_sublist _ _)
  refine bind (onReplica_ends ((getFullBlocksFromDevicePrefixCache_ends _ uncommitted
    (h.books.pools ρ)).mono (fun blocks p hp => ?_) fun _ _ he => he.imp_right (mt hnodup))) ?_
    (Q := fun blocks s' => Inv (inHand ρ (tally blocks)) s' ∧ SameRequests s s')
  · have h' := h.deal (v := 0) hp.2 hp.1 rfl
    exact ⟨h', ⟨rfl, rfl, rfl, rfl⟩⟩
  · rintro deviceBlocks s1 ⟨h1, hsame1⟩
    split_ifs with hcon
    · exact ⟨⟨by simpa using h1, rfl, by simp, by simp⟩, hsame1, by simp, by simp⟩
    · refine bind (onReplica_ends ((takeHostBlocks_ends env (uncommitted.drop deviceBlocks.length)
        (h1.books.pools ρ)).mono (fun blocks p hp => ?_) fun _ _ he => he.elim)) ?_
        (Q := fun loaded s' => Holding ρ ⟨deviceBlocks, loaded,
          (uncommitted.drop deviceBlocks.length).take loaded.length⟩ s' ∧ SameRequests s s' ∧
          (loaded ≠ [] → env.load ≠ .refused))
      · obtain ⟨hi', hl, hload⟩ := hp
        have h' := h1.deal (v := tally deviceBlocks) hl.deal hi' (by simp)
        rw [update_inHand, add_comm, ← tally_append] at h'
        refine ⟨⟨h', ?_, hl.nodup, fun b hb => ?_⟩, hsame1.trans ⟨rfl, rfl, rfl, rfl⟩, hload⟩
        · simpa using hl.length_le
        · simpa using hl.fresh b hb
      · rintro loaded s2 ⟨h2, hsame2, hload⟩
        refine ⟨h2, hsame2, fun hnd => ?_, hload⟩
        exact (hnodup hnd).sublist ((take_sublist _ _).trans (drop_sublist _ _))

theorem Inv.withHashes (h : Inv hand s) (l : R → List H) : Inv hand { s with reqToHashes := l } :=
  ⟨⟨h.books.pools, h.books.refs, h.books.matched, h.books.unclaimed⟩, fun r =>
    (h.request r).congr rfl rfl rfl rfl fun _ _ _ _ hf => hf⟩

/-- No hash comes twice in the chain of a request. -/
def DistinctHashes (s : BlockManager cfg R) (r : R) : Prop :=
  ∀ new, cfg.computeBlockHashes (s.contexts r) (s.reqToHashes r) = .ok new →
    (s.reqToHashes r ++ new).Nodup

theorem Inv.computeHashesForRequest_ends (h : Inv 0 s) : Ends (computeHashesForRequest cfg r s)
      (fun _ s' => Inv 0 s' ∧ SameRequests s s' ∧ s'.pendingOffloads = s.pendingOffloads ∧
        (DistinctHashes s r → (s'.reqToHashes r).Nodup)) (fun e s' => s' = s ∧ IsOther e) := by
  rw [computeHashesForRequest, bind_get]
  cases hnew : cfg.computeBlockHashes (s.contexts r) (s.reqToHashes r) with
  | error m => exact ⟨rfl, .valueError m⟩
  | ok new =>
    refine ⟨h.withHashes _, ⟨rfl, rfl, rfl, rfl⟩, rfl, fun hdist => ?_⟩
    simpa using hdist new hnew

theorem Inv.beginReuse_ends (h : Inv 0 s) (env : PagedEnv cfg) (hr : s.reqToReplica.get? r = some ρ) :
    Ends (beginReuse cfg env r s)
      (fun begun s' => SameRequests s s' ∧ match begun with
        | none => Inv 0 s'
        | some (ρ', staged) => ρ' = ρ ∧ Holding ρ staged s' ∧ (DistinctHashes s r → staged.loadedHashes.Nodup) ∧
          (staged.loadedBlocks ≠ [] → env.load ≠ .refused))
      (fun e s' => e.isInsufficient = false ∧ (DistinctHashes s r → Books 0 s' ∧ IsOther e)) := by
  rw [beginReuse, bind_of_ok (replicaOf_ok hr)]
  refine bind (h.books.assertRuntimeInvariants_ends.raises ?_) ?_
  · rintro _ _ ⟨rfl, rfl⟩
    exact ⟨rfl, fun _ => ⟨h.books, .assertion _⟩⟩
  rintro _ _ rfl
  rw [bind_get]
  split_ifs with hskip
  · exact ⟨.refl _, h⟩
  refine bind (h.computeHashesForRequest_ends.raises ?_) ?_
  · rintro e _ ⟨rfl, he⟩
    exact ⟨he.2, fun _ => ⟨h.books, he⟩⟩
  rintro _ s1 ⟨h1, hsame1, -, hnd1⟩
  refine bind ((h1.stageFullBlocks_ends env).raises ?_) ?_
  · rintro e s2 ⟨rfl, hdup⟩
    exact ⟨rfl, fun hdist => absurd (hnd1 hdist) hdup⟩
  rintro staged s2 ⟨hheld, hsame2, hnd, hload⟩
  exact ⟨hsame1.trans hsame2, rfl, hheld, fun hdist => hnd (hnd1 hdist), hload⟩

/-- A complete load brings a hash that is published here already. -/
def clash (env : PagedEnv cfg) (staged : Staged (H := H)) (p : BlockPool H) : Bool :=
  !cfg.onlyUseConnectorLastLevelCache && env.load = .complete && staged.loadedHashes.any p.holds

/-- The blocks stay in hand. They are lost there when a hash clashes. -/
theorem Holding.admitLoad_ends {staged : Staged (H := H)} (h : Holding ρ staged s) (env : PagedEnv cfg)
    (hload : staged.loadedBlocks ≠ [] → env.load ≠ .refused) :
    Ends (admitLoad cfg env ρ staged s)
      (fun _ s' => Inv (inHand ρ (tally (staged.deviceBlocks ++ staged.loadedBlocks))) s' ∧
        SameRequests s s' ∧ clash env staged (s.pools ρ) = false)
      (fun e s' => Books (inHand ρ (tally (staged.deviceBlocks ++ staged.loadedBlocks))) s' ∧ staged.loadedBlocks ≠ [] ∧
        (staged.loadedHashes.Nodup → clash env staged (s.pools ρ) = true) ∧ IsOther e) := by
  have hhand : inHand ρ (tally (staged.deviceBlocks ++ staged.loadedBlocks)) ρ =
      tally staged.loadedBlocks + tally staged.deviceBlocks := by
    rw [inHand_self, tally_append, add_comm]
  rw [admitLoad]
  split_ifs with hempty
  · refine ⟨h.inv, .refl s, ?_⟩
    have hnil : staged.loadedHashes = [] := by
      rw [← length_eq_zero_iff, h.length_eq, hempty]
      rfl
    simp [clash, hnil]
  cases hanswer : env.load with
  | refused => exact absurd hanswer (hload hempty)
  | pending =>
    have hheld : tally staged.loadedBlocks ≤ (s.pools ρ).refCnt := by
      rw [h.inv.books.refs ρ, hhand]
      exact le_self_add.trans le_add_self
    obtain ⟨p', hok, hi', hd⟩ := forM_touch_held _ (h.inv.books.pools ρ) hheld
    obtain ⟨s', hrun, h', hsame⟩ := h.inv.trackTransfer_ok (some staged.loadedHashes)
      hok hi' hd hhand fun hashes hh => by
        rw [← Option.some.inj hh]
        exact h.length_eq
    simp only
    rw [bind_of_ok hrun]
    exact ⟨h', hsame, by simp [clash, hanswer]⟩
  | complete =>
    have hfst : (staged.loadedBlocks.zip staged.loadedHashes).map Prod.fst = staged.loadedBlocks :=
      map_fst_zip h.length_eq.ge
    have hsnd : (staged.loadedBlocks.zip staged.loadedHashes).map Prod.snd = staged.loadedHashes :=
      map_snd_zip h.length_eq.le
    have hcommit := commitLoaded_ends (R := R) cfg.onlyUseConnectorLastLevelCache
      (staged.loadedBlocks.zip staged.loadedHashes) (h.inv.books.pools ρ) (by rw [hfst]; exact h.nodup)
      fun e he => h.fresh e.1 (hfst ▸ mem_map_of_mem he)
    rw [hfst, hsnd] at hcommit
    have hback : update (inHand ρ (tally (staged.deviceBlocks ++ staged.loadedBlocks))) ρ
        (tally staged.loadedBlocks + tally staged.deviceBlocks) =
        inHand ρ (tally (staged.deviceBlocks ++ staged.loadedBlocks)) := by
      rw [← hhand, update_eq_self]
    refine bind (onReplica_ends (hcommit.mono ?_ ?_)) ?_
      (Q := fun _ s' => Inv (inHand ρ (tally (staged.deviceBlocks ++ staged.loadedBlocks))) s' ∧
        SameRequests s s' ∧ clash env staged (s.pools ρ) = false)
    · rintro _ p' ⟨⟨hi', hd⟩, hfree⟩
      have h' := h.inv.deal hd hi' hhand
      rw [hback] at h'
      refine ⟨h', ⟨rfl, rfl, rfl, rfl⟩, ?_⟩
      cases honly : cfg.onlyUseConnectorLastLevelCache with
      | true => simp [clash, honly]
      | false =>
        have hnone : staged.loadedHashes.any (s.pools ρ).holds = false := by
          rw [any_eq_false, ← hsnd]
          intro k hk
          obtain ⟨e, he, rfl⟩ := mem_map.mp hk
          simp [hfree honly e he]
        simp [clash, hnone]
    · rintro e p' ⟨⟨hi', hd⟩, rfl, honly, hclash⟩
      have h' := h.inv.books.deal hd hi' hhand
      rw [hback] at h'
      refine ⟨h', hempty, fun hnd => ?_, .assertion _⟩
      obtain ⟨c, hc, hholds⟩ := hclash hnd
      have hany : staged.loadedHashes.any (s.pools ρ).holds = true :=
        any_eq_true.mpr ⟨c.2, hsnd ▸ mem_map_of_mem hc, hholds⟩
      simp [clash, honly, hanswer, hany]
    · exact fun _ s' hs => hs

theorem popBlocks_ok {kept : List ℕ} (l : List ℕ) : ∀ {s : BlockManager cfg R},
    s.reqToReplica.get? r = some ρ → Books hand s → OthersOk s r → s.reqToBlocks r = kept ++ l →
    ∃ p', popBlocks cfg r ρ l.length s = .ok () (withBlocks (withPool s ρ p') r kept) ∧
      Books hand (withBlocks (withPool s ρ p') r kept) ∧ OthersOk (withBlocks (withPool s ρ p') r kept) r := by
  induction l using reverseRecOn with
  | nil =>
    intro s hr h ho hrow
    rw [append_nil] at hrow
    have hsame : withBlocks (withPool s ρ (s.pools ρ)) r kept = s := by
      simp [withBlocks, ← hrow]
    exact ⟨s.pools ρ, by rw [hsame]; rfl, by rwa [hsame], by rwa [hsame]⟩
  | append_singleton l b ih =>
    intro s hr h ho hrow
    rw [← append_assoc] at hrow
    have hhand : tally (s.reqToBlocks r) + hand ρ = tally [b] + (tally (kept ++ l) + hand ρ) := by
      rw [hrow, tally_append _ [b]]
      ac_rfl
    have hb : (s.pools ρ).refCnt b ≠ 0 := by
      refine refCnt_ne_zero (h.row_le hr) ?_
      rw [hhand]
      simp [tally]
    obtain ⟨p1, hok1, hi1, hd1, -⟩ := freeBlock_ok (h.pools ρ) hb
    have h1 := h.dealRow (l := kept ++ l) (a := hand ρ) hr hd1 hi1 hhand (by simp)
    rw [update_eq_self] at h1
    obtain ⟨p2, hok2, h2, ho2⟩ := ih (s := withBlocks (withPool s ρ p1) r (kept ++ l)) hr h1
      (fun r' hne => (ho r' hne).dealRow h hr hne hd1 hhand) (update_self ..)
    have hfinal : withBlocks (withPool (withBlocks (withPool s ρ p1) r (kept ++ l)) ρ p2) r kept =
        withBlocks (withPool s ρ p2) r kept := by
      simp [withBlocks]
    rw [hfinal] at hok2 h2 ho2
    refine ⟨p2, ?_, h2, ho2⟩
    rw [length_append, length_singleton, popBlocks, bind_get]
    simp only [hrow, getLast?_concat]
    rw [bind_get]
    simp only [hrow, dropLast_concat, setBlocks]
    rw [bind_modify, bind_of_ok (onReplica_of_ok (s := withBlocks s r (kept ++ l)) hok1)]
    exact hok2

theorem Books.withTokens (h : Books hand s) (tokens : TokenBuffer) : Books hand (withTokens s r tokens) :=
  ⟨h.pools, h.refs, h.matched, h.unclaimed⟩

/-- The tokens and blocks past the commits of the request are given up. -/
structure Released (r : R) (s s' : BlockManager cfg R) : Prop where
  replica : s'.reqToReplica = s.reqToReplica
  blocks : s'.reqToBlocks r = (s.reqToBlocks r).take (numCommittedBlocks cfg s r)
  committed : s'.reqToCommittedIdx = s.reqToCommittedIdx
  processed : (s'.contexts r).tokens.processedLength = s.reqToCommittedIdx r
  window : (s'.contexts r).tokens.processingRange.start ≤ (s'.contexts r).tokens.processingRange.stop

theorem Books.releaseUncommittedBlocks_ok (h : Books hand s) (ho : OthersOk s r) (hr : s.reqToReplica.get? r = some ρ)
    (hwin : (s.contexts r).tokens.processingRange.start ≤ (s.contexts r).tokens.processingRange.stop)
    (hle : s.reqToCommittedIdx r ≤ (s.contexts r).tokens.processedLength)
    (hrows : numCommittedBlocks cfg s r ≤ (s.reqToBlocks r).length) :
    ∃ s', releaseUncommittedBlocks cfg r s = .ok () s' ∧ Books hand s' ∧ OthersOk s' r ∧ Released r s s' := by
  set kept := (s.reqToBlocks r).take (numCommittedBlocks cfg s r) with hkept
  obtain ⟨p', hok, h1, ho1⟩ := popBlocks_ok ((s.reqToBlocks r).drop (numCommittedBlocks cfg s r)) hr h ho
    (take_append_drop _ _).symm
  rw [length_drop] at hok
  have hpop : ∀ k : Unit → Eff cfg R Unit,
      (popBlocks cfg r ρ ((s.reqToBlocks r).length - numCommittedBlocks cfg s r) >>= k) s =
        k () (withBlocks (withPool s ρ p') r kept) := fun k => bind_of_ok hok
  rw [releaseUncommittedBlocks, bind_of_ok (replicaOf_ok hr), bind_get]
  simp only [if_neg hrows.not_gt]
  rw [hpop]
  rcases hle.eq_or_lt with heq | hlt
  · refine ⟨withBlocks (withPool s ρ p') r kept, ?_, h1, ho1, ?_⟩
    · rw [if_neg (by omega), if_neg (by omega)]
      rfl
    · exact ⟨rfl, update_self .., rfl, heq.symm, hwin⟩
  · have hrewind := rewindProcessing_of_le
      (m := (s.contexts r).tokens.processedLength - s.reqToCommittedIdx r) (sub_le _ _) hwin
    rw [cast_sub hle] at hrewind
    rw [if_pos (by omega)]
    refine ⟨_, onTokens_ok hrewind, h1.withTokens _, ho1.withTokens _, rfl, update_self .., rfl, ?_, ?_⟩
    · simp only [update_self]
      show (s.contexts r).tokens.processedLength - _ = _
      omega
    · simp only [update_self]
      exact (sub_le _ _).trans hwin

theorem Books.appendRow (h : Books (inHand ρ (tally blocks)) s)
    (hr : s.reqToReplica.get? r = some ρ) : Books 0 (withBlocks s r (s.reqToBlocks r ++ blocks)) := by
  have h' := h.dealRow (l := s.reqToBlocks r ++ blocks) (a := 0) hr (.refl _ 0) (h.pools ρ)
    (v := tally (s.reqToBlocks r) + tally blocks) (by simp) (by simp [tally_append])
  simpa [withPool] using h'

/-- What a hit of `blocks` leaves of the request. -/
structure Spliced (r : R) (blocks : List ℕ) (s s' : BlockManager cfg R) : Prop where
  replica : s'.reqToReplica = s.reqToReplica
  row : s'.reqToBlocks r = (s.reqToBlocks r).take (numCommittedBlocks cfg s r) ++ blocks
  committed : s'.reqToCommittedIdx r = s.reqToCommittedIdx r + blocks.length * cfg.blockSize
  processed : (s'.contexts r).tokens.processedLength = s'.reqToCommittedIdx r

theorem Inv.of_others (h : Books hand s) (ho : OthersOk s r) (hr : RequestOk s r) : Inv hand s := by
  refine ⟨h, fun r' => ?_⟩
  rcases eq_or_ne r' r with rfl | hne
  · exact hr
  · exact ho r' hne

/-- The window moves to the commits, or an exception stops the call; the books stay. -/
theorem Books.skipCommitted_ends (h : Books 0 s) (ho : OthersOk s r)
    (hr : s.reqToReplica.get? r = some ρ) (halign : cfg.blockSize ∣ s.reqToCommittedIdx r)
    (hrow : (s.reqToBlocks r).length = numCommittedBlocks cfg s r) (isFirstAdmission : Bool) (numExternalBlocks : ℕ) :
    Ends (skipCommitted cfg r isFirstAdmission numExternalBlocks s)
      (fun skip s' => Inv 0 s' ∧ s'.reqToReplica = s.reqToReplica ∧ s'.reqToBlocks = s.reqToBlocks ∧
        s'.reqToCommittedIdx = s.reqToCommittedIdx ∧ (s'.contexts r).tokens.processedLength = s.reqToCommittedIdx r ∧
        skip = s.reqToCommittedIdx r - (s.contexts r).tokens.processedLength) (fun e s' => Books 0 s' ∧ IsOther e) := by
  rw [skipCommitted, bind_get]
  cases hskip : (s.contexts r).tokens.skipProcessing
      (s.reqToCommittedIdx r - (s.contexts r).tokens.processedLength) with
  | error m =>
    rw [bind_of_error (onTokens_error hskip)]
    exact ⟨h, .valueError m⟩
  | ok tokens =>
    rw [bind_of_ok (onTokens_ok hskip), bind_get]
    have h' := h.withTokens (r := r) tokens
    split_ifs
    · exact ⟨h', .assertion _⟩
    dsimp only
    split_ifs
    · exact ⟨h', .assertion _⟩
    have hproc : tokens.processedLength = s.reqToCommittedIdx r := by
      have := (skipProcessing_ok hskip).1
      omega
    have hctx : (BlockManager.withTokens s r tokens).contexts r = { s.contexts r with tokens } := update_self ..
    refine ⟨.of_others h' (ho.withTokens tokens) (.of_committed hr ?_ ?_ halign hrow), rfl, rfl, rfl, ?_, rfl⟩
    · rw [hctx]
      exact skipProcessing_window hskip
    · rw [hctx]
      exact hproc.ge
    · rw [hctx]
      exact hproc

theorem Inv.spliceBlocks_ends (h : Inv (inHand ρ (tally blocks)) s)
    (hr : s.reqToReplica.get? r = some ρ) (numExternalBlocks : ℕ) : Ends (spliceBlocks cfg r blocks numExternalBlocks s)
      (fun skip s' => Inv 0 s' ∧ Spliced r blocks s s' ∧ skip = (blocks.length * cfg.blockSize : ℕ))
      (fun e s' => Books 0 s' ∧ IsOther e) := by
  have hok := h.request r
  obtain ⟨s1, hrun, h1, ho1, hrel⟩ := h.books.releaseUncommittedBlocks_ok (fun r' _ => h.request r') hr
    hok.window hok.committed_le hok.rows
  have hr1 : s1.reqToReplica.get? r = some ρ := by rw [hrel.replica, hr]
  set s2 := withCommittedIdx (withBlocks s1 r (s1.reqToBlocks r ++ blocks)) r
    (s1.reqToCommittedIdx r + blocks.length * cfg.blockSize) with hs2
  have h2 : Books 0 s2 := by
    have h' := h1.appendRow hr1
    exact ⟨h'.pools, h'.refs, h'.matched, h'.unclaimed⟩
  have hrow2 : s2.reqToBlocks r = (s.reqToBlocks r).take (numCommittedBlocks cfg s r) ++ blocks := by
    rw [← hrel.blocks]
    exact update_self ..
  have hidx2 : s2.reqToCommittedIdx r = s.reqToCommittedIdx r + blocks.length * cfg.blockSize := by
    rw [← hrel.committed]
    exact update_self ..
  have hlen2 : (s2.reqToBlocks r).length = numCommittedBlocks cfg s2 r := by
    have hnum : numCommittedBlocks cfg s2 r = numCommittedBlocks cfg s r + blocks.length := by
      rw [numCommittedBlocks, hidx2, add_mul_div_right _ _ cfg.blockSize_pos]
      rfl
    rw [hrow2, hnum, length_append, length_take, min_eq_left hok.rows]
  rw [spliceBlocks, bind_get, bind_of_ok hrun]
  refine (h2.skipCommitted_ends (ho1.withRequest _ _) hr1 ?_ hlen2 _ numExternalBlocks).imp ?_
  · rw [hidx2]
    exact Nat.dvd_add hok.aligned (Nat.dvd_mul_left ..)
  · rintro skip s3 ⟨h3, hrep, hblks, hcomm, hproc, hskip⟩
    refine ⟨h3, ⟨?_, ?_, ?_, ?_⟩, ?_⟩
    · rw [hrep]
      exact hrel.replica
    · rw [hblks, hrow2]
    · rw [hcomm, hidx2]
    · rw [hproc, hcomm]
    · have hctx : (s2.contexts r).tokens.processedLength = s.reqToCommittedIdx r := hrel.processed
      rw [hskip, hidx2, hctx]
      push_cast
      ring

theorem Inv.rollbackPrefixReuse_ok (h : Inv 0 s) (hr : s.reqToReplica.get? r = some ρ) {n : ℕ}
    (hn : n ≠ 0) (hle : n ≤ s.reqToCommittedIdx r) (hdvd : cfg.blockSize ∣ n) :
    ∃ s', rollbackPrefixReuse cfg r n s = .ok () s' ∧ Inv 0 s' ∧
      s'.reqToBlocks r = (s.reqToBlocks r).take ((s.reqToCommittedIdx r - n) / cfg.blockSize) ∧
      s'.reqToCommittedIdx r = s.reqToCommittedIdx r - n ∧
      (s'.contexts r).tokens.processedLength = s.reqToCommittedIdx r - n := by
  have hok := h.request r
  set s1 := withCommittedIdx s r (s.reqToCommittedIdx r - n) with hs1
  have hidx : s1.reqToCommittedIdx r = s.reqToCommittedIdx r - n := update_self ..
  have h1 : Books 0 s1 := ⟨h.books.pools, h.books.refs, h.books.matched, h.books.unclaimed⟩
  have ho1 : OthersOk s1 r := fun r' hne =>
    (h.request r').congr rfl (update_of_ne hne _ _) rfl rfl fun _ _ _ _ hf => hf
  have hrows : numCommittedBlocks cfg s1 r ≤ (s1.reqToBlocks r).length := by
    rw [numCommittedBlocks, hidx]
    exact (Nat.div_le_div_right (Nat.sub_le _ _)).trans hok.rows
  obtain ⟨s', hrun, h', ho', hrel⟩ := h1.releaseUncommittedBlocks_ok ho1 hr hok.window
    (by rw [hidx]; exact (sub_le _ _).trans hok.committed_le) hrows
  have hrow' : s'.reqToBlocks r = (s.reqToBlocks r).take ((s.reqToCommittedIdx r - n) / cfg.blockSize) := by
    rw [hrel.blocks, numCommittedBlocks, hidx]
  have hidx' : s'.reqToCommittedIdx r = s.reqToCommittedIdx r - n := by rw [hrel.committed, hidx]
  refine ⟨s', ?_, .of_others h' ho' (.of_committed (by rw [hrel.replica, ← hr]) hrel.window ?_ ?_ ?_), hrow', hidx',
    by rw [hrel.processed, hidx]⟩
  · rw [rollbackPrefixReuse, if_pos (by exact_mod_cast hn), bind_get, setCommittedIdx]
    have hcast : ((s.reqToCommittedIdx r : ℤ) - n).toNat = s.reqToCommittedIdx r - n := by omega
    rw [hcast, bind_modify]
    exact hrun
  · rw [hrel.processed, hidx', hidx]
  · rw [hidx']
    exact (dvd_sub_iff_left hle hdvd).mpr hok.aligned
  · rw [hrow', numCommittedBlocks, hidx', length_take]
    rw [numCommittedBlocks, hidx] at hrows
    exact min_eq_left hrows

theorem Inv.appendFresh (h : Inv 0 s) (hr : s.reqToReplica.get? r = some ρ) {p' : BlockPool H} {b : ℕ}
    (hi' : p'.Inv cfg.totalNumBlocks) (hd : Deals (s.pools ρ) 0 p' (tally [b])) (hfresh : p'.Fresh b) :
    Inv 0 (withBlocks (withPool s ρ p') r (s.reqToBlocks r ++ [b])) := by
  have h1 := h.deal (v := 0) hd hi' rfl
  have hok := h1.request r
  have hrow : (withBlocks (withPool s ρ p') r (s.reqToBlocks r ++ [b])).reqToBlocks r =
      s.reqToBlocks r ++ [b] := update_self ..
  have hrows : numCommittedBlocks cfg s r ≤ (s.reqToBlocks r).length := hok.rows
  refine .of_others (h1.books.appendRow hr) (fun r' hne => (h1.request r').congr rfl rfl
    (update_of_ne hne _ _) rfl fun _ _ _ _ hf => hf) ⟨hok.window, hok.committed_le, hok.aligned, ?_,
    fun ρ' hr' c hc => ?_, hok.unclaimed⟩
  · rw [hrow, length_append]
    exact hrows.trans (le_add_right _ _)
  · rw [hrow] at hc
    have hc : c ∈ (s.reqToBlocks r ++ [b]).drop (numCommittedBlocks cfg s r) := hc
    rw [drop_append_of_le_length hrows] at hc
    rcases mem_append.mp hc with hc | hc
    · exact hok.fresh ρ' hr' c hc
    · obtain rfl : ρ = ρ' := Option.some.inj (hr.symm.trans hr')
      rw [mem_singleton.mp hc]
      simpa using hfresh

theorem appendBlocks_ok (n : ℕ) : ∀ {s : BlockManager cfg R}, Inv 0 s →
    s.reqToReplica.get? r = some ρ → n ≤ (s.pools ρ).numFreeBlocks →
    ∃ s', appendBlocks cfg r ρ n s = .ok () s' ∧ Inv 0 s' := by
  induction n with
  | zero => exact fun h _ _ => ⟨_, rfl, h⟩
  | succ n ih =>
    intro s h hr hn
    obtain ⟨b, e, p', hok, hi', hd, -, hfresh, hfree, -⟩ := allocBlock_ok (h.books.pools ρ) (by omega)
    obtain ⟨s', hrun, h'⟩ := ih (h.appendFresh hr hi' hd hfresh) hr (by simp; omega)
    refine ⟨s', ?_, h'⟩
    rw [appendBlocks, bind_of_ok (onReplica_of_ok hok)]
    exact hrun

theorem Inv.allocateNewBlocks_ends (h : Inv 0 s) (hr : s.reqToReplica.get? r = some ρ) :
    Ends (allocateNewBlocks cfg r s) (fun _ s' => Inv 0 s') (fun e s' => s' = s ∧ e ≠ .poolAssertion) := by
  rw [allocateNewBlocks, bind_of_ok (replicaOf_ok hr), bind_get]
  rcases lt_or_ge (cfg.totalNumBlocks * cfg.blockSize) ((s.contexts r).tokens.all.length +
    (s.contexts r).draftTokensToVerify + (s.contexts r).maybeAcceptedDraftTokens) with hlong | hlong
  · simp only [if_pos hlong]
    exact ⟨rfl, by simp⟩
  rcases lt_or_ge ((s.reqToBlocks r).length * cfg.blockSize) (s.contexts r).tokens.processedLength
    with hrows | hrows
  · simp only [if_neg hlong.not_gt, if_pos hrows]
    exact ⟨rfl, by simp⟩
  rcases lt_or_ge (s.pools ρ).numFreeBlocks (numBlocksToAllocate cfg s r) with hfree | hfree
  · simp only [if_neg hlong.not_gt, if_neg hrows.not_gt, if_pos hfree]
    exact ⟨rfl, by simp⟩
  · obtain ⟨s', hrun, h'⟩ := appendBlocks_ok (numBlocksToAllocate cfg s r) h hr hfree
    simp only [if_neg hlong.not_gt, if_neg hrows.not_gt, if_neg hfree.not_gt, hrun]
    exact h'

end MojoProse.KvCache.BlockManager
