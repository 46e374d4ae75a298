import MojoProse.KvCache.BlockManagerSteps

/-! Every call of the manager from a state in order. -/

namespace MojoProse.KvCache.BlockManager
open Schemes Pipelines BlockPool Ends List Function Dict Nat
theorem Spliced.of_same {blocks : List ℕ} (hsame : SameRequests s s') (h : Spliced r blocks s' s'') :
    Spliced r blocks s s'' := by
  obtain ⟨hrep, hblks, hcomm, -⟩ := hsame
  obtain ⟨h1, h2, h3, h4⟩ := h
  refine ⟨h1.trans hrep, ?_, by rw [h3, hcomm], h4⟩
  rw [h2, hblks, numCommittedBlocks, hcomm]
  rfl

variable {H R : Type} [DecidableEq H] [DecidableEq R] {cfg : BlockManagerConfig H} {s s' s'' s₀ : BlockManager cfg R}
  {r r' : R} {ρ ρ' : cfg.Replica} {hand : cfg.Replica → ℕ → ℕ}

/-- Whether the reuse hits the assertion on the hashes of a complete load. -/
def clashes (env : PagedEnv cfg) (r : R) (s : BlockManager cfg R) : Bool :=
  match beginReuse cfg env r s with
  | .ok (some (ρ, staged)) s' => clash env staged (s'.pools ρ)
  | _ => false

def splices (env : PagedEnv cfg) (r : R) (s : BlockManager cfg R) : Bool :=
  match beginReuse cfg env r s with
  | .ok (some (_, staged)) _ => staged.deviceBlocks ++ staged.loadedBlocks ≠ []
  | _ => false

/-- References that no row and no transfer accounts for. -/
def Leaks (s : BlockManager cfg R) : Prop := ∃ ρ a, a ≠ 0 ∧ Books (inHand ρ a) s

/-- What the reuse left of the request, and the tokens it skipped. -/
def Reused (env : PagedEnv cfg) (r : R) (s : BlockManager cfg R) (skip : ℤ) (s' : BlockManager cfg R) : Prop :=
  if splices env r s then
    ∃ blocks, blocks ≠ [] ∧ Spliced r blocks s s' ∧ skip = (blocks.length * cfg.blockSize : ℕ)
  else SameRequests s s' ∧ skip = 0

theorem Inv.reuseBlocksFromPrefixCache_ends (h : Inv 0 s) (env : PagedEnv cfg) (hr : s.reqToReplica.get? r = some ρ) :
    Ends (reuseBlocksFromPrefixCache cfg env r s)
      (fun res s' => clashes env r s = false ∧ Inv 0 s' ∧ Reused env r s res.1 s')
      (fun e s' => e.isInsufficient = false ∧ (DistinctHashes s r → IsOther e ∧
        (clashes env r s = false ∧ Books 0 s' ∨ clashes env r s = true ∧ Leaks s'))) := by
  have hbegin := h.beginReuse_ends env hr
  rw [reuseBlocksFromPrefixCache]
  cases hrun : beginReuse cfg env r s with
  | error e s1 =>
    rw [hrun] at hbegin
    rw [bind_of_error hrun]
    refine ⟨hbegin.1, fun hdist => ?_⟩
    obtain ⟨hbooks, he⟩ := hbegin.2 hdist
    exact ⟨he, .inl ⟨by simp [clashes, hrun], hbooks⟩⟩
  | ok begun s1 =>
    rw [hrun] at hbegin
    rw [bind_of_ok hrun]
    obtain ⟨hsame, hbegin⟩ := hbegin
    cases begun with
    | none =>
      refine ⟨by simp [clashes, hrun], hbegin, ?_⟩
      rw [Reused, if_neg (by simp [splices, hrun])]
      exact ⟨hsame, rfl⟩
    | some begun =>
      obtain ⟨ρ', staged⟩ := begun
      obtain ⟨rfl, hheld, hnd, hload⟩ := hbegin
      have hclash : clashes env r s = clash env staged (s1.pools ρ') := by simp [clashes, hrun]
      have hsplices : splices env r s = decide (staged.deviceBlocks ++ staged.loadedBlocks ≠ []) := by
        simp [splices, hrun]
      have hr1 : s1.reqToReplica.get? r = some ρ' := by rw [hsame.replica, hr]
      refine bind ((hheld.admitLoad_ends env hload).raises ?_) ?_
      · rintro e s2 ⟨hbooks, hne, hclashes, he⟩
        refine ⟨he.2, fun hdist => ⟨he, .inr ⟨hclash.trans (hclashes (hnd hdist)), ρ', _, fun h0 => ?_, hbooks⟩⟩⟩
        obtain ⟨b, l, hb⟩ := exists_cons_of_ne_nil hne
        have := congrFun h0 b
        rw [Pi.zero_apply, tally_eq_zero_iff] at this
        exact this (by simp [hb])
      rintro complete s2 ⟨h2, hsame2, hnoclash⟩
      have hnoclash : clashes env r s = false := hclash.trans hnoclash
      rcases eq_or_ne (staged.deviceBlocks ++ staged.loadedBlocks) [] with hnil | hblks
      · simp only [if_pos hnil]
        refine ⟨hnoclash, by simpa [hnil] using h2, ?_⟩
        rw [Reused, if_neg (by simp [hsplices, hnil])]
        exact ⟨hsame.trans hsame2, rfl⟩
      · simp only [if_neg hblks]
        refine bind ((h2.spliceBlocks_ends (by rw [hsame2.replica, hr1]) _).raises
          fun e s3 he => ⟨he.2.2, fun _ => ⟨he.2, .inl ⟨hnoclash, he.1⟩⟩⟩) ?_
        rintro skip s3 ⟨h3, hspliced, hskip⟩
        refine ⟨hnoclash, h3, ?_⟩
        rw [Reused, if_pos (by simp [hsplices, hblks])]
        exact ⟨_, hblks, hspliced.of_same (hsame.trans hsame2), hskip⟩

/-- The state that `poll_transfers` leaves. -/
def polled (landed : cfg.Replica → ℕ → Bool) (s : BlockManager cfg R) : BlockManager cfg R :=
  match pollTransfers cfg landed s with
  | .ok _ s' => s'
  | .error _ s' => s'

/-- What a refused allocation leaves of the request: a splice is undone to the commits. -/
def Refused (env : PagedEnv cfg) (r : R) (s s' : BlockManager cfg R) : Prop :=
  s'.reqToCommittedIdx r = s.reqToCommittedIdx r ∧
  if splices env r (polled env.landed s) then
    s'.reqToBlocks r = (s.reqToBlocks r).take (numCommittedBlocks cfg s r) ∧
      (s'.contexts r).tokens.processedLength = s.reqToCommittedIdx r
  else s'.reqToBlocks r = s.reqToBlocks r ∧ s'.contexts r = s.contexts r

theorem Inv.rollback_reused (h : Inv 0 s) (h' : Inv 0 s') {env : PagedEnv cfg} {skip : ℤ}
    (hr : s.reqToReplica.get? r = some ρ) (hreused : Reused env r s skip s') :
    ∃ s'', rollbackPrefixReuse cfg r skip s' = .ok () s'' ∧ Inv 0 s'' ∧
      s''.reqToCommittedIdx r = s.reqToCommittedIdx r ∧ if splices env r s then
        s''.reqToBlocks r = (s.reqToBlocks r).take (numCommittedBlocks cfg s r) ∧
          (s''.contexts r).tokens.processedLength = s.reqToCommittedIdx r
      else s''.reqToBlocks r = s.reqToBlocks r ∧ s''.contexts r = s.contexts r := by
  rw [Reused] at hreused
  split_ifs at hreused ⊢ with hsplices
  · obtain ⟨blocks, hne, hspliced, rfl⟩ := hreused
    have hpos : blocks.length * cfg.blockSize ≠ 0 := (mul_pos (length_pos_of_ne_nil hne) cfg.blockSize_pos).ne'
    have hback : s'.reqToCommittedIdx r - blocks.length * cfg.blockSize = s.reqToCommittedIdx r := by
      rw [hspliced.committed]
      omega
    obtain ⟨s'', hrun, h'', hrow, hidx, hproc⟩ := h'.rollbackPrefixReuse_ok
      (by rw [hspliced.replica, hr]) hpos (by rw [hspliced.committed]; omega) (dvd_mul_left ..)
    rw [hback] at hrow hidx hproc
    refine ⟨s'', hrun, h'', hidx, ?_, hproc⟩
    rw [hrow, hspliced.row]
    refine take_left' ?_
    rw [length_take, min_eq_left (h.request r).rows]
    rfl
  · obtain ⟨hsame, rfl⟩ := hreused
    exact ⟨s', rfl, h', by rw [hsame.committed], by rw [hsame.blocks], by rw [hsame.contexts]⟩

theorem Inv.alloc_ends (h : Inv 0 s) (env : PagedEnv cfg) (hr : s.reqToReplica.get? r = some ρ) :
    Ends (alloc cfg env r s) (fun _ s' => clashes env r (polled env.landed s) = false ∧ Inv 0 s')
      (fun e s' => (e.isInsufficient = true → Inv 0 s' ∧ Refused env r s s') ∧
        (DistinctHashes s r → e ≠ .poolAssertion ∧ (clashes env r (polled env.landed s) = false ∧ Books 0 s' ∨
            clashes env r (polled env.landed s) = true ∧ Leaks s'))) := by
  obtain ⟨_, s1, hrun, h1, hsame1, hhashes1⟩ := (h.pollTransfers_ends env.landed).ok
  have hpolled : polled env.landed s = s1 := by rw [polled, hrun]
  have hr1 : s1.reqToReplica.get? r = some ρ := by rw [hsame1.replica, hr]
  have hdist1 : DistinctHashes s r → DistinctHashes s1 r := fun hdist => by
    rw [DistinctHashes, hsame1.contexts, hhashes1]
    exact hdist
  rw [alloc, bind_of_ok hrun]
  simp only [Refused, hpolled]
  refine bind ((h1.reuseBlocksFromPrefixCache_ends env hr1).raises ?_) ?_
  · rintro e s2 ⟨hins, hrest⟩
    refine ⟨by simp [hins], fun hdist => ?_⟩
    obtain ⟨he, hcases⟩ := hrest (hdist1 hdist)
    exact ⟨he.1, hcases⟩
  rintro ⟨skip, complete⟩ s2 ⟨hnoclash, h2, hreused⟩
  have hr2 : s2.reqToReplica.get? r = some ρ := by
    rw [Reused] at hreused
    split_ifs at hreused
    · obtain ⟨_, -, hspliced, -⟩ := hreused
      rw [hspliced.replica, hr1]
    · rw [hreused.1.replica, hr1]
  refine bind (onRaise (h2.allocateNewBlocks_ends hr2) ?_ ?_) fun _ s3 h3 => ⟨hnoclash, h3⟩
  · rintro e _ ⟨rfl, he⟩ -
    obtain ⟨s3, hback, h3, hidx, hrest⟩ := h1.rollback_reused h2 hr1 hreused
    simp only [hback]
    refine ⟨fun _ => ⟨h3, ?_, ?_⟩, fun _ => ⟨he, .inl ⟨hnoclash, h3.books⟩⟩⟩
    · rw [hidx, hsame1.committed]
    · rw [hsame1.blocks, hsame1.contexts, hsame1.committed, numCommittedBlocks, hsame1.committed] at hrest
      exact hrest
  · rintro e _ ⟨rfl, he⟩ hother
    exact ⟨by simp [hother], fun _ => ⟨he, .inl ⟨hnoclash, h2.books⟩⟩⟩

theorem Inv.alloc_unclaimed (h : Inv 0 s) (env : PagedEnv cfg) (hr : s.reqToReplica.get? r = none) :
    clashes env r (polled env.landed s) = false ∧ ∃ s', alloc cfg env r s = .error (.unclaimed r) s' ∧ Books 0 s' := by
  obtain ⟨_, s1, hrun, h1, hsame1, -⟩ := (h.pollTransfers_ends env.landed).ok
  have herr : beginReuse cfg env r s1 = .error (.unclaimed r) s1 := by
    rw [beginReuse, bind_of_error (replicaOf_error (by rw [hsame1.replica, hr]))]
  have hreuse : reuseBlocksFromPrefixCache cfg env r s1 = .error (.unclaimed r) s1 := by
    rw [reuseBlocksFromPrefixCache, bind_of_error herr]
  refine ⟨?_, s1, ?_, h1.books⟩
  · rw [polled, hrun]
    simp [clashes, herr]
  · rw [alloc, bind_of_ok hrun, bind_of_error hreuse]

/-- The loop of `commit_to_prefix_cache` at block `idx`: from there on the blocks are fresh. -/
structure Committing (r : R) (ρ : cfg.Replica) (s₀ : BlockManager cfg R) (idx : ℕ) (s : BlockManager cfg R) : Prop where
  books : Books 0 s
  others : OthersOk s r
  fresh : ∀ b ∈ (s.reqToBlocks r).drop idx, (s.pools ρ).Fresh b
  covered : idx ≤ (s.reqToBlocks r).length
  replica : s.reqToReplica = s₀.reqToReplica
  committed : s.reqToCommittedIdx = s₀.reqToCommittedIdx
  contexts : s.contexts = s₀.contexts

/-- One block: it is published, or traded for its twin. -/
theorem Committing.step {idx b : ℕ} (h : Committing r ρ s₀ idx s)
    (hr : s.reqToReplica.get? r = some ρ) (hb : (s.reqToBlocks r)[idx]? = some b) (k : H) :
    ∃ t p', (getOrCommitIntoPrefixCache cfg.totalNumBlocks k b : BlockPool.Eff H R _) (s.pools ρ) = .ok t p' ∧
      Committing r ρ s₀ (idx + 1) (withBlocks (withPool s ρ p') r ((s.reqToBlocks r).set idx (t.getD b))) := by
  obtain ⟨hidx, hget⟩ := List.getElem?_eq_some_iff.mp hb
  have hdrop : (s.reqToBlocks r).drop idx = b :: (s.reqToBlocks r).drop (idx + 1) := by
    rw [drop_eq_getElem_cons hidx, hget]
  have hfresh : (s.pools ρ).Fresh b := h.fresh b (by simp [hdrop])
  obtain ⟨t, p', hok, hi', hd⟩ := getOrCommitIntoPrefixCache_ok (h.books.pools ρ) hfresh k
  have hbef : tally (s.reqToBlocks r) + (0 : cfg.Replica → ℕ → ℕ) ρ =
      tally [b] + tally ((s.reqToBlocks r).eraseIdx idx) := by
    rw [← tally_cons, ← hget, tally_perm (getElem_cons_eraseIdx_perm hidx)]
    rfl
  have hafter : tally ((s.reqToBlocks r).set idx (t.getD b)) + 0 =
      tally [t.getD b] + tally ((s.reqToBlocks r).eraseIdx idx) := by
    rw [← tally_cons, tally_perm (set_perm_cons_eraseIdx hidx _)]
    rfl
  have hbooks := h.books.dealRow hr hd hi' hbef hafter
  rw [update_zero, inHand_zero] at hbooks
  have hrow : (withBlocks (withPool s ρ p') r ((s.reqToBlocks r).set idx (t.getD b))).reqToBlocks r =
      (s.reqToBlocks r).set idx (t.getD b) := update_self ..
  refine ⟨t, p', hok, hbooks, fun r' hne => (h.others r' hne).dealRow h.books hr hne hd hbef, ?_, ?_,
    h.replica, h.committed, h.contexts⟩
  · intro c hc
    rw [hrow, drop_set_of_lt (lt_succ_self idx)] at hc
    have hcnt := (h.books.alone hr (mem_of_getElem? hb) hfresh).1
    have hne : c ≠ b := by
      rintro rfl
      rw [← take_append_drop idx (s.reqToBlocks r), hdrop, tally_append, Pi.add_apply, tally_cons, Pi.add_apply] at hcnt
      have hone : tally [c] c = 1 := by simp [tally]
      have hzero : tally ((s.reqToBlocks r).drop (idx + 1)) c ≠ 0 := fun h0 =>
        tally_eq_zero_iff.mp h0 hc
      omega
    have hcf : (s.pools ρ).Fresh c := h.fresh c (by rw [hdrop]; exact mem_cons_of_mem _ hc)
    have := hd.fresh hcf (tally_eq_zero_iff.mpr (by simpa using hne))
    simpa using this
  · rw [hrow, length_set]
    exact hidx

theorem commitFrom_ends (hr : s₀.reqToReplica.get? r = some ρ) (n : ℕ) :
    ∀ {idx : ℕ} {s : BlockManager cfg R}, Committing r ρ s₀ idx s →
    Ends (commitFrom cfg r ρ idx n s) (fun _ s' => Committing r ρ s₀ (idx + n) s')
      (fun e s' => Books 0 s' ∧ IsOther e) := by
  induction n with
  | zero => exact fun h => h
  | succ n ih =>
    intro idx s h
    rw [commitFrom, bind_get]
    cases hb : (s.reqToBlocks r)[idx]? with
    | none => exact ⟨h.books, by simp, rfl⟩
    | some b =>
      cases hk : (s.reqToHashes r)[idx]? with
      | none => exact ⟨h.books, by simp, rfl⟩
      | some k =>
        obtain ⟨t, p', hok, h'⟩ := h.step (by rw [h.replica, hr]) hb k
        have hrest := ih h'
        rw [add_right_comm, add_assoc] at hrest
        simp only
        rw [bind_of_ok (onReplica_of_ok hok)]
        cases t with
        | some newBlock => exact hrest
        | none =>
          have hsame : withBlocks (withPool s ρ p') r ((s.reqToBlocks r).set idx b) =
              withPool s ρ p' := by
            obtain ⟨hidx, hget⟩ := List.getElem?_eq_some_iff.mp hb
            simp [withBlocks, ← hget]
          rw [Option.getD_none, hsame] at hrest
          exact hrest

theorem Inv.commitToPrefixCache_ends (h : Inv 0 s) :
    Ends (commitToPrefixCache cfg r s) (fun _ s' => Inv 0 s') (fun e s' => Books 0 s' ∧ IsOther e) := by
  cases hr : s.reqToReplica.get? r with
  | none =>
    rw [commitToPrefixCache, bind_of_error (replicaOf_error hr)]
    exact ⟨h.books, by simp, rfl⟩
  | some ρ =>
    have hok := h.request r
    set first := numCommittedBlocks cfg s r with hfst
    set last := (s.contexts r).tokens.processedLength / cfg.blockSize with hlast
    have hle : first ≤ last := Nat.div_le_div_right hok.committed_le
    have hstart : Committing r ρ s first s :=
      ⟨h.books, fun r' _ => h.request r', hok.fresh ρ hr, hok.rows, rfl, rfl, rfl⟩
    have hloop := commitFrom_ends hr (last - first) hstart
    rw [Nat.add_sub_cancel' hle] at hloop
    rw [commitToPrefixCache, bind_of_ok (replicaOf_ok hr), bind_get]
    refine bind hloop fun _ s1 h1 => ?_
    -- whatever is queued for offload, the request ends at `last`
    have hend : ∀ offloads, Inv 0 { s1 with
        pendingOffloads := offloads
        reqToCommittedIdx := update s1.reqToCommittedIdx r (last * cfg.blockSize) } := by
      intro offloads
      refine .of_others ⟨h1.books.pools, h1.books.refs, h1.books.matched, h1.books.unclaimed⟩
        (fun r' hne => (h1.others r' hne).congr rfl (update_of_ne hne _ _) rfl rfl fun _ _ _ _ hf => hf) ?_
      have hnum : numCommittedBlocks cfg { s1 with
          pendingOffloads := offloads
          reqToCommittedIdx := update s1.reqToCommittedIdx r (last * cfg.blockSize) } r = last := by
        simp [numCommittedBlocks, cfg.blockSize_pos]
      refine ⟨?_, ?_, ?_, ?_, fun ρ' hr' b hb => ?_, fun hnone => ?_⟩
      · rw [h1.contexts]
        exact hok.window
      · simp only [update_self, h1.contexts]
        exact div_mul_le_self _ _
      · simp only [update_self]
        exact dvd_mul_left ..
      · rw [hnum]
        exact h1.covered
      · rw [hnum] at hb
        obtain rfl : ρ = ρ' := Option.some.inj ((h1.replica ▸ hr).symm.trans hr')
        exact h1.fresh b hb
      · have : s1.reqToReplica.get? r = none := hnone
        rw [h1.replica, hr] at this
        cases this
    split_ifs
    · exact hend _
    · exact hend s1.pendingOffloads

theorem Inv.step_ends (h : Inv 0 s) :
    Ends (step cfg r s) (fun _ s' => Inv 0 s') (fun e s' => Books 0 s' ∧ IsOther e) := by
  have hcheck : ∀ {t : BlockManager cfg R}, Inv 0 t → Ends (assertRuntimeInvariants cfg r t)
      (fun _ t' => t' = t) (fun e s' => Books 0 s' ∧ IsOther e) := by
    intro t ht
    refine ht.books.assertRuntimeInvariants_ends.raises ?_
    rintro _ _ ⟨rfl, rfl⟩
    exact ⟨ht.books, .assertion _⟩
  rw [step]
  refine bind (hcheck h) ?_
  rintro _ _ rfl
  split_ifs
  · refine bind (h.computeHashesForRequest_ends.raises ?_) ?_
    · rintro e _ ⟨rfl, he⟩
      exact ⟨h.books, he⟩
    rintro _ s1 ⟨h1, -⟩
    refine bind h1.commitToPrefixCache_ends fun _ s2 h2 => ?_
    refine (hcheck h2).imp ?_
    rintro _ _ rfl
    exact h2
  · exact h

theorem Inv.claim_ends (h : Inv 0 s) (ρ : cfg.Replica) :
    Ends (claim r ρ s) (fun _ s' => Inv 0 s') (fun e s' => Books 0 s' ∧ IsOther e) := by
  rw [claim, bind_get]
  cases hr : s.reqToReplica.get? r with
  | some existing => exact ⟨h.books, by simp, rfl⟩
  | none =>
    have hnil := h.books.unclaimed r hr
    have hok := h.request r
    have hheld : ∀ ρ', held { s with reqToReplica := s.reqToReplica.insert r ρ } ρ' = held s ρ' := by
      intro ρ'
      rw [held_eq_sum, held_eq_sum]
      simp only [insert_of_notMem (get?_eq_none_iff.mp hr), sum_insertNew]
      simp [share, hnil]
    refine Inv.of_others ⟨h.books.pools, fun ρ' => ?_, h.books.matched, fun r' hr' => ?_⟩
      (fun r' hne => (h.request r').congr rfl rfl rfl (get?_insert_of_ne hne) fun _ _ _ _ hf => hf)
      ⟨hok.window, hok.committed_le, hok.aligned, hok.rows, fun ρ' _ b hb => ?_, fun _ =>
        hok.unclaimed hr⟩
    · rw [hheld]
      exact h.books.refs ρ'
    · rcases eq_or_ne r' r with rfl | hne
      · exact hnil
      · exact h.books.unclaimed r' (by rwa [← get?_insert_of_ne hne])
    · have hmem : b ∈ s.reqToBlocks r := mem_of_mem_drop hb
      rw [hnil] at hmem
      cases hmem

/-- The state after the blocks of `r` went back to the pool of `ρ`. -/
abbrev withoutRequest (s : BlockManager cfg R) (r : R) (ρ : cfg.Replica) (p' : BlockPool H) : BlockManager cfg R :=
  { s with
    pools := update s.pools ρ p'
    reqToBlocks := update s.reqToBlocks r []
    reqToHashes := update s.reqToHashes r []
    reqToReplica := s.reqToReplica.erase r
    reqToCommittedIdx := update s.reqToCommittedIdx r 0 }

theorem Inv.withoutRequest (h : Inv 0 s) (hr : s.reqToReplica.get? r = some ρ) {p' : BlockPool H}
    (hi' : p'.Inv cfg.totalNumBlocks) (hd : Deals (s.pools ρ) (tally (s.reqToBlocks r)) p' 0) :
    Inv 0 (withoutRequest s r ρ p') := by
  have hheld : ∀ ρ', held (BlockManager.withoutRequest s r ρ p') ρ' = heldByOthers s r ρ' := by
    intro ρ'
    have hothers : heldByOthers (withBlocks s r []) r ρ' = heldByOthers s r ρ' :=
      heldByOthers_congr (by rfl) (fun r' hne => update_of_ne hne _ _) ρ'
    rw [← hothers, held_eq_sum]
    rfl
  refine Inv.of_others (h.books.trade hd hi' rfl ?_ (fun ρ' hne => ?_) h.books.matched fun r' hr' => ?_)
    (fun r' hne => (h.request r').congr rfl (update_of_ne hne _ _) (update_of_ne hne _ _)
      (get?_erase_of_ne hne) (fresh_of_deal hd fun b hr' hb hf => ?_))
    ⟨(h.request r).window, ?_, ?_, ?_, fun ρ' hr' => ?_, fun _ => update_self ..⟩
  · rw [hheld, held_here hr, Pi.zero_apply, add_zero, add_zero, add_zero]
    ac_rfl
  · rw [hheld, held_of_claimed hr, share, if_neg hne.symm, zero_add]
    rfl
  · rcases eq_or_ne r' r with rfl | hne
    · exact update_self ..
    · exact (update_of_ne hne _ _).trans (h.books.unclaimed r' (by rwa [← get?_erase_of_ne hne]))
  · have halone := (h.books.alone hr' hb hf).2.1
    have hshare : tally (s.reqToBlocks r) b ≤ heldByOthers s r' ρ b := tally_le_heldByOthers hr hne.symm b
    omega
  · simp
  · simp
  · simp [numCommittedBlocks]
  · have hgone : (s.reqToReplica.erase r).get? r = some ρ' := hr'
    rw [get?_erase_self] at hgone
    cases hgone

theorem Inv.release_ends (h : Inv 0 s) :
    Ends (release cfg r s) (fun _ s' => Inv 0 s') (fun e s' => Books 0 s' ∧ IsOther e) := by
  cases hr : s.reqToReplica.get? r with
  | none =>
    rw [release, bind_of_error (replicaOf_error hr)]
    exact ⟨h.books, by simp, rfl⟩
  | some ρ =>
    set ordered := if cfg.enablePrefixCaching then (s.reqToBlocks r).reverse else s.reqToBlocks r with hord
    have htally : tally ordered = tally (s.reqToBlocks r) := by
      rw [hord]
      split_ifs
      · exact tally_perm (reverse_perm _)
      · rfl
    have hle : tally ordered ≤ (s.pools ρ).refCnt := by
      rw [htally]
      exact le_trans (by simp) (h.books.row_le hr)
    obtain ⟨p', hok, hi', hd⟩ := forM_freeBlock_ok ordered (h.books.pools ρ) hle
    rw [htally] at hd
    rw [release, bind_of_ok (replicaOf_ok hr), bind_get, ← hord, bind_of_ok (onReplica_of_ok hok)]
    exact h.withoutRequest hr hi' hd

theorem published_of_offloadRun {p : BlockPool H} (hi : p.Inv cfg.totalNumBlocks) {hashes : List H}
    {b : ℕ} (hb : b ∈ offloadRun p hashes) : p.blockHash b ≠ none := by
  obtain ⟨k, -, hk⟩ := mem_filterMap.mp hb
  rw [(hi.cache k b).mp hk]
  simp

theorem Inv.offload_ends (h : Inv 0 s) (complete : ℕ → Bool) (ρ : cfg.Replica) :
    Ends (offload cfg complete ρ s) (fun _ s' => Inv 0 s') (fun e s' => Books 0 s' ∧ IsOther e) := by
  rw [offload, bind_get]
  refine bind (forM (I := fun _ s' => Inv 0 s') ?_ _ s h) ?_
  · rintro ⟨hashes, i⟩ - s1 h1
    dsimp only
    rw [bind_get]
    cases complete i with
    | true => exact h1
    | false =>
      obtain ⟨p', hok, hi', hd⟩ := forM_touch_published (offloadRun (s1.pools ρ) hashes)
        (h1.books.pools ρ) fun b hb => published_of_offloadRun (h1.books.pools ρ) hb
      rw [← zero_add (tally _)] at hd
      obtain ⟨s2, hrun, h2, -⟩ := h1.trackTransfer_ok (v := 0) none hok hi' hd rfl fun _ hnone => by cases hnone
      rw [if_pos rfl, hrun]
      exact h2
  · intro _ s1 h1
    exact ⟨⟨h1.books.pools, h1.books.refs, h1.books.matched, h1.books.unclaimed⟩, fun r' =>
      (h1.request r').congr rfl rfl rfl rfl fun _ _ _ _ hf => hf⟩

theorem Inv.resetPrefixCache_ends (h : Inv 0 s) :
    Ends ((resetPrefixCache cfg : Eff cfg R Unit) s) (fun _ s' => Inv 0 s') (fun e s' => Books 0 s' ∧ IsOther e) := by
  refine forM (I := fun _ s' => Inv 0 s') ?_ _ s h
  intro ρ _ s1 h1
  refine onReplica_ends ((BlockPool.resetPrefixCache_ends (h1.books.pools ρ)).mono ?_ fun _ _ he =>
    he.elim)
  rintro _ p' ⟨hi', hd⟩
  have h2 := h1.deal (v := 0) hd hi' rfl
  rwa [add_zero, update_zero, inHand_zero] at h2

end MojoProse.KvCache.BlockManager
