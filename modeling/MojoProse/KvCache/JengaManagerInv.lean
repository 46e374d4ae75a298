import MojoProse.KvCache.JengaAllocation
import MojoProse.KvCache.JengaWindow
import Mathlib.Algebra.BigOperators.Group.Finset.Basic
import Mathlib.Algebra.Order.BigOperators.Group.Finset

/-! The invariant of the manager.

    Pools are sound and their counts cover every claimed row and every pin; the rows of a claimed
    request have null blocks only below their windows. A call for one request keeps it as soon as it
    moves references only (`Moves`) and leaves that request in order. -/

namespace MojoProse.KvCache.JengaBlockManager
open Schemes Support KVGroup KVTree Finset Ends Function
variable {C H R : Type} {cfg : ManagerConfig C H} {r : R} {ρ : ℕ} {s s' : JengaBlockManager C H R}
  {st st' : RequestCacheState H}

def heldBy (s : JengaBlockManager C H R) (ρ : ℕ) (r : R) : C × ℕ → ℕ :=
  match s.requests r with
  | none => 0
  | some st => if st.replicaIdx = ρ then refsOfRows (s.rowsOf r) else 0

structure RequestOk (cfg : ManagerConfig C H) (s : JengaBlockManager C H R) (r : R)
    (st : RequestCacheState H) : Prop where
  committed_le : st.committedIdx ≤ s.processed r
  rows : ∀ c, RowOk cfg.blockSize (s.processed r) (cfg.group c) (s.rowsOf r c)

theorem heldBy_of_requests (hst : s.requests r = some st) (ρ : ℕ) :
    s.heldBy ρ r = if st.replicaIdx = ρ then refsOfRows (s.rowsOf r) else 0 := by
  rw [heldBy, hst]

theorem heldBy_of_unclaimed (h : s.requests r = none) (ρ : ℕ) : s.heldBy ρ r = 0 := by
  rw [heldBy, h]

theorem heldBy_congr {r : R} (hrows : s'.rowsOf r = s.rowsOf r) (hreq : s'.requests r = s.requests r)
    (ρ : ℕ) : s'.heldBy ρ r = s.heldBy ρ r := by
  rw [heldBy, heldBy, hreq, hrows]

theorem RequestOk.congr (hok : RequestOk cfg s r st) (hidx : st'.committedIdx = st.committedIdx)
    (hctx : s'.contexts r = s.contexts r) (hrows : s'.rowsOf r = s.rowsOf r) : RequestOk cfg s' r st' := by
  refine ⟨?_, ?_⟩
  · rw [hidx, processed, hctx]
    exact hok.committed_le
  · rw [processed, hctx, hrows]
    exact hok.rows

theorem SameRequest.requestOk (h : SameRequest r st s s') (hok : RequestOk cfg s r st) (hact : 0 ≤ s.active r) :
    ∃ st', s'.requests r = some st' ∧ st'.replicaIdx = st.replicaIdx ∧ 0 ≤ s'.active r ∧ RequestOk cfg s' r st' := by
  obtain ⟨hrows, hctx, hashes, hst'⟩ := h
  exact ⟨_, hst', rfl, by rwa [active, hctx], hok.congr rfl hctx hrows⟩

/-- Only a request with nothing committed is spliced, so its rows are the hit. -/
theorem Spliced.requestOk (h : Spliced cfg r st s s') (hok : RequestOk cfg s r st) :
    ∃ st', s'.requests r = some st' ∧ st'.replicaIdx = st.replicaIdx ∧ 0 ≤ s'.active r ∧ RequestOk cfg s' r st' := by
  obtain ⟨hfresh, ⟨n, m, -, ⟨hashes, hst'⟩, hproc, hrows⟩, hact⟩ := h
  have hzero : st.committedIdx = 0 := by
    have := hok.committed_le
    omega
  rw [hzero, Nat.zero_add] at hproc
  refine ⟨_, hst', rfl, hact, ?_, fun c => ?_⟩
  · simp [hzero, hproc]
  · obtain ⟨hit, loaded, hhit, hloaded, hrow⟩ := hrows c
    rw [hrow, hzero, Nat.zero_div, List.take_zero, List.nil_append, hproc]
    exact .spliced hhit hloaded

theorem Grew.requestOk (h : Grew r s s') (hst : s.requests r = some st) (hok : RequestOk cfg s r st)
    (hact : 0 ≤ s.active r) : s'.requests r = some st ∧ 0 ≤ s'.active r ∧ RequestOk cfg s' r st := by
  obtain ⟨hreq, hctx, hrows⟩ := h
  refine ⟨by rw [hreq, hst], by rwa [active, hctx], ?_, fun c => ?_⟩
  · rw [processed, hctx]
    exact hok.committed_le
  · obtain ⟨new, hrow, hreal⟩ := hrows c
    rw [processed, hctx, hrow]
    exact (hok.rows c).append hreal

theorem seqLen_le_numRequiredBlocks (ctx : TextContext) :
    computeSeqLen cfg.numDraftTokens cfg.numDraftTokensPerStep cfg.maxNumInputTokens ctx ≤
      (cfg.blockSize * numRequiredBlocks cfg ctx : ℕ) := by
  rw [Nat.mul_comm]
  exact (toNat_ceildiv_le_iff cfg.blockSize_pos).mp le_rfl

theorem processed_le_numRequiredBlocks {ctx : TextContext} (hact : 0 ≤ ctx.tokens.activeLength) :
    ctx.tokens.processedLength ≤ cfg.blockSize * numRequiredBlocks cfg ctx := by
  have hseq : (ctx.tokens.processedLength : ℤ) ≤ computeSeqLen cfg.numDraftTokens
      cfg.numDraftTokensPerStep cfg.maxNumInputTokens ctx := by
    simp only [computeSeqLen]
    split <;> split_ifs <;> omega
  exact_mod_cast hseq.trans (seqLen_le_numRequiredBlocks ctx)

variable [DecidableEq C] [DecidableEq H]

structure Inv (cfg : ManagerConfig C H) (s : JengaBlockManager C H R) : Prop where
  pools : ∀ ρ, (s.pools ρ).Inv cfg.geometry
  active_nonneg : ∀ r, 0 ≤ s.active r
  request : ∀ r st, s.requests r = some st → RequestOk cfg s r st
  covered : ∃ claimed : Finset R, (∀ r ∉ claimed, s.requests r = none) ∧
    ∀ ρ, (∑ r ∈ claimed, s.heldBy ρ r) + s.pins ρ ≤ live (s.pools ρ)

theorem Inv.pins_le (h : Inv cfg s) (ρ : ℕ) : s.pins ρ ≤ live (s.pools ρ) := by
  obtain ⟨claimed, -, hcov⟩ := h.covered
  exact le_trans (by simp) (hcov ρ)

theorem Inv.of_pinMoves (h : Inv cfg s) (hm : PinMoves cfg s s') : Inv cfg s' := by
  refine ⟨hm.inv, fun r => ?_, fun r st hst => ?_, ?_⟩
  · rw [active, hm.contexts]
    exact h.active_nonneg r
  · rw [hm.requests] at hst
    exact (h.request r st hst).congr rfl (by rw [hm.contexts]) (hm.rowsOf r)
  · obtain ⟨claimed, hclaim, hcov⟩ := h.covered
    refine ⟨claimed, fun r hr => by rw [hm.requests, hclaim r hr], fun ρ => ?_⟩
    have hheld : ∑ r ∈ claimed, s'.heldBy ρ r = ∑ r ∈ claimed, s.heldBy ρ r :=
      sum_congr rfl fun r _ => heldBy_congr (hm.rowsOf r) (by rw [hm.requests]) ρ
    rw [hheld, add_comm]
    exact (hm.trade ρ).covers (by rw [add_comm]; exact hcov ρ)

theorem offload_ends {complete : ℕ → Bool} (hi : ∀ ρ', (s.pools ρ').Inv cfg.geometry) :
    Ends ((offload cfg complete ρ : ManagerEff C H R Unit) s) (fun _ s' => PinMoves cfg s s') KvError.Other := by
  rw [offload]
  split_ifs
  swap
  · exact .refl hi
  rw [bind_get]
  refine bind (forM (I := fun _ s' => PinMoves cfg s s') ?_ _ s (.refl hi)) ?_
  · rintro ⟨hashes, i⟩ rest s1 hm
    simp only [bind_get]
    split_ifs
    · -- the blocks of the run are published
      have htouch : ∀ c, ∀ b ∈ offloadRun cfg (s1.pools ρ) hashes c, Touchable (s1.pools ρ) c b := by
        intro c b hb _
        simp only [offloadRun, List.mem_filterMap] at hb
        obtain ⟨x, -, hx⟩ := hb
        exact .inr (by simp [((hm.inv ρ).cache c x b).mp hx])
      obtain ⟨t, p', hok, hi', ht⟩ := pinTransfer_ok none (hm.inv ρ) htouch
      have htrade : Trades (live (s1.pools ρ)) (s1.pins ρ) (live p')
          (pinsOf (s1.pendingTransfers ρ ++ t.toList)) := ht.exchange (by simp [pins, pinsOf])
      refine bind (Q := fun x s2 => x = t ∧ s2 = { s1 with pools := update s1.pools ρ p' }) (zoom ?_) ?_
      · rw [hok]
        exact ⟨rfl, rfl⟩
      · rintro _ _ ⟨rfl, rfl⟩
        exact hm.trans (.of_replica hm.inv hi' htrade)
    · exact hm
  · rintro _ s1 hm
    exact ⟨hm.inv, hm.trade, hm.rows, hm.requests, hm.contexts⟩

theorem resetPrefixCache_pinMoves (hi : ∀ ρ, (s.pools ρ).Inv cfg.geometry) :
    PinMoves cfg s { s with pools := fun ρ => (s.pools ρ).resetPrefixCache } :=
  ⟨fun ρ => JengaBlockPool.resetPrefixCache_inv (hi ρ), fun _ => .refl _ _, rfl, rfl, rfl⟩

variable [DecidableEq R]

theorem Inv.backed (h : Inv cfg s) (hst : s.requests r = some st) : Backed cfg r st.replicaIdx s 0 := by
  refine ⟨h.pools, h.pins_le, ?_⟩
  obtain ⟨claimed, hclaim, hcov⟩ := h.covered
  have hmem : r ∈ claimed := by
    by_contra hr
    rw [hclaim r hr] at hst
    cases hst
  refine le_trans ?_ (hcov st.replicaIdx)
  rw [add_zero, ← add_sum_erase claimed _ hmem, heldBy_of_requests hst, if_pos rfl]
  exact add_le_add_left le_self_add _

section
variable {leak : C × ℕ → ℕ} (h : Inv cfg s) (hst : s.requests r = some st) (hm : Moves cfg r st.replicaIdx s 0 s' leak)
  (hst' : s'.requests r = some st') (hρ : st'.replicaIdx = st.replicaIdx)
include h hst hm hst' hρ

/-- A call for one request that leaves it claimed. What it leaves in hand is lost to everyone. -/
theorem Inv.of_moves (hact : 0 ≤ s'.active r) (hok : RequestOk cfg s' r st') : Inv cfg s' := by
  refine ⟨hm.inv, fun r' => ?_, fun r' st'' hst'' => ?_, ?_⟩
  · rcases eq_or_ne r' r with rfl | hne
    · exact hact
    · rw [active, (hm.others r' hne).2.2]
      exact h.active_nonneg r'
  · rcases eq_or_ne r' r with rfl | hne
    · rw [hst'] at hst''
      cases hst''
      exact hok
    · obtain ⟨hrows, hreq, hctx⟩ := hm.others r' hne
      rw [hreq] at hst''
      exact (h.request r' st'' hst'').congr rfl hctx hrows
  · obtain ⟨claimed, hclaim, hcov⟩ := h.covered
    have hmem : r ∈ claimed := by
      by_contra hr
      rw [hclaim r hr] at hst
      cases hst
    refine ⟨claimed, fun r' hr' => ?_, fun ρ => ?_⟩
    · rw [(hm.others r' fun h => hr' (h ▸ hmem)).2.1]
      exact hclaim r' hr'
    · have hothers : ∑ r' ∈ claimed.erase r, s'.heldBy ρ r' = ∑ r' ∈ claimed.erase r, s.heldBy ρ r' :=
        sum_congr rfl fun r' hr' =>
          have ho := hm.others r' (ne_of_mem_erase hr')
          heldBy_congr ho.1 ho.2.1 ρ
      have hcov := hcov ρ
      rw [← add_sum_erase claimed _ hmem, heldBy_of_requests hst] at hcov
      rw [← add_sum_erase claimed _ hmem, hothers, heldBy_of_requests hst', hρ]
      rcases eq_or_ne st.replicaIdx ρ with rfl | hne
      · rw [if_pos rfl] at hcov ⊢
        have htrade := hm.trade.frame (∑ r' ∈ claimed.erase r, s.heldBy st.replicaIdx r')
        intro k
        have h1 := htrade k
        have h2 := hcov k
        simp only [Pi.add_apply, Pi.zero_apply] at h1 h2 ⊢
        omega
      · rw [if_neg hne] at hcov ⊢
        intro k
        have h1 := hm.elsewhere ρ (Ne.symm hne) k
        have h2 := hcov k
        simp only [Pi.add_apply, Pi.zero_apply] at h1 h2 ⊢
        omega

theorem Inv.of_moves_tokens (hctx : s'.contexts = s.contexts) (hle : st'.committedIdx ≤ s.processed r)
    (hrows : ∀ c, RowOk cfg.blockSize (s.processed r) (cfg.group c) (s'.rowsOf r c)) : Inv cfg s' := by
  refine h.of_moves hst hm hst' hρ ?_ ⟨?_, ?_⟩
  · rw [active, hctx]
    exact h.active_nonneg r
  · rwa [processed, hctx]
  · rwa [processed, hctx]

end

section Alloc
variable {env : CallEnv C H} {s1 : JengaBlockManager C H R}

theorem Reused.requestOk (h : Reused cfg env r ρ st s s') (hok : RequestOk cfg s r st) (hact : 0 ≤ s.active r) :
    ∃ st', s'.requests r = some st' ∧ st'.replicaIdx = st.replicaIdx ∧ 0 ≤ s'.active r ∧ RequestOk cfg s' r st' := by
  rw [Reused] at h
  split_ifs at h
  · exact h.requestOk hok
  · exact h.requestOk hok hact

theorem Failure.inv (h : Inv cfg s) (hst : s.requests r = some st)
    (hf : Failure cfg env r st.replicaIdx st s s') : Inv cfg s' := by
  have hok := h.request r st hst
  have hact := h.active_nonneg r
  cases hf with
  | staging _ same leak _ moves =>
    obtain ⟨st', hst', hρ, hact', hok'⟩ := same.requestOk hok hact
    exact h.of_moves hst moves hst' hρ hact' hok'
  | refused _ moves request =>
    split_ifs at request
    · obtain ⟨hfresh, hproc, hact', hrows, hashes, hst'⟩ := request
      have hzero : st.committedIdx = 0 := by
        have := hok.committed_le
        omega
      refine h.of_moves hst moves hst' rfl hact' ⟨hproc.ge, fun c => ?_⟩
      obtain ⟨row, hrow⟩ := hrows c
      rw [hrow, hzero, Nat.zero_div, List.take_zero]
      exact .nil
    · obtain ⟨st', hst', hρ, hact', hok'⟩ := request.requestOk hok hact
      exact h.of_moves hst moves hst' hρ hact' hok'
  | growing _ moves s1 reused grew _ =>
    obtain ⟨st1, hst1, hρ, hact1, hok1⟩ := reused.requestOk hok hact
    obtain ⟨hst', hact', hok'⟩ := grew.requestOk hst1 hok1 hact1
    exact h.of_moves hst moves hst' hρ hact' hok'

/-- A call that returns leaves rows that cover the tokens processed. -/
theorem Inv.alloc_ends (h : Inv cfg s) (env : CallEnv C H) (hst : s.requests r = some st) : Ends (alloc cfg env r s)
      (fun _ s' => Inv cfg s' ∧ (∃ st', s'.requests r = some st' ∧ st'.replicaIdx = st.replicaIdx) ∧
        ∀ c, s'.processed r ≤ cfg.blockSize * (s'.rowsOf r c).length)
      (fun e s' => e.isInsufficient = true → Inv cfg s') := by
  refine (JengaBlockManager.alloc_ends env hst rfl (h.backed hst)).mono ?_ fun e s' hf he =>
    (hf he).inv h hst
  rintro _ s' ⟨hm, s1, hreused, hgrew, hlen⟩
  obtain ⟨st1, hst1, hρ, hact1, hok1⟩ := hreused.requestOk (h.request r st hst) (h.active_nonneg r)
  obtain ⟨hst', hact', hok'⟩ := hgrew.requestOk hst1 hok1 hact1
  refine ⟨h.of_moves hst hm hst' hρ hact' hok', ⟨st1, hst', hρ⟩, fun c => ?_⟩
  exact (processed_le_numRequiredBlocks hact').trans (Nat.mul_le_mul_left _ (hlen c))

end Alloc

theorem Inv.claim_ends (h : Inv cfg s) : Ends ((claim r ρ : ManagerEff C H R Unit) s) (fun _ s' => Inv cfg s')
      KvError.Other := by
  rw [claim, bind_get]
  cases hr : s.requests r with
  | some existing => exact rfl
  | none =>
    generalize hs' : ({ s with
      requests := update s.requests r (some ⟨ρ, [], 0⟩)
      rows := fun c => update (s.rows c) r [] } : JengaBlockManager C H R) = s'
    have hrows : s'.rowsOf r = fun _ => [] := by
      funext c
      simp [← hs', rowsOf]
    have hst : s'.requests r = some ⟨ρ, [], 0⟩ := by simp [← hs']
    have hothers : ∀ r', r' ≠ r → s'.rowsOf r' = s.rowsOf r' ∧ s'.requests r' = s.requests r' := by
      intro r' hne
      refine ⟨funext fun c => ?_, ?_⟩
      · simp [← hs', rowsOf, hne]
      · simp [← hs', hne]
    have hctx : s'.contexts = s.contexts := by rw [← hs']
    have hheld : ∀ ρ' r', s'.heldBy ρ' r' = s.heldBy ρ' r' := by
      intro ρ' r'
      rcases eq_or_ne r' r with rfl | hne
      · rw [heldBy_of_unclaimed hr, heldBy_of_requests hst, hrows]
        simp
      · exact heldBy_congr (hothers r' hne).1 (hothers r' hne).2 ρ'
    obtain ⟨claimed, hclaim, hcov⟩ := h.covered
    have hinv : Inv cfg s' := by
      refine ⟨fun ρ' => by rw [← hs']; exact h.pools ρ', fun r' => ?_, fun r' st hst' => ?_,
        insert r claimed, fun r' hr' => ?_, fun ρ' => ?_⟩
      · rw [active, hctx]
        exact h.active_nonneg r'
      · rcases eq_or_ne r' r with rfl | hne
        · rw [hst] at hst'
          cases hst'
          exact ⟨Nat.zero_le _, fun c => by rw [hrows]; exact .nil⟩
        · rw [(hothers r' hne).2] at hst'
          exact (h.request r' st hst').congr rfl (by rw [hctx]) (hothers r' hne).1
      · simp only [mem_insert, not_or] at hr'
        rw [(hothers r' hr'.1).2, hclaim r' hr'.2]
      · rw [sum_congr rfl fun r' _ => hheld ρ' r', sum_insert_of_eq_zero_if_notMem fun _ => heldBy_of_unclaimed hr ρ']
        rw [← hs']
        exact hcov ρ'
    rw [← hs'] at hinv
    exact hinv

theorem Inv.unclaim (h : Inv cfg s) (r : R) : Inv cfg { s with requests := update s.requests r none } := by
  refine ⟨h.pools, h.active_nonneg, fun r' st hst => ?_, ?_⟩
  · rcases eq_or_ne r' r with rfl | hne
    · simp at hst
    · have hst : s.requests r' = some st := by simpa [hne] using hst
      exact ⟨(h.request r' st hst).committed_le, (h.request r' st hst).rows⟩
  · obtain ⟨claimed, hclaim, hcov⟩ := h.covered
    refine ⟨claimed, fun r' hr' => ?_, fun ρ => le_trans (add_le_add_left ?_ _) (hcov ρ)⟩
    · rcases eq_or_ne r' r with rfl | hne
      · simp
      · simpa [hne] using hclaim r' hr'
    · refine sum_le_sum fun r' _ => ?_
      rcases eq_or_ne r' r with rfl | hne
      · rw [heldBy_of_unclaimed (by simp)]
        exact fun k => Nat.zero_le _
      · refine le_of_eq (heldBy_congr ?_ ?_ ρ)
        · rfl
        · simp [hne]

theorem Inv.release_ends (h : Inv cfg s) : Ends ((release cfg r : ManagerEff C H R Unit) s) (fun _ s' => Inv cfg s')
      KvError.Other := by
  rw [release]
  cases hst : s.requests r with
  | none =>
    rw [bind_of_error (stateOf_error hst)]
    exact rfl
  | some st =>
    rw [bind_of_ok (stateOf_ok hst)]
    have hb := h.backed hst
    refine bind (onTree_ends (a := 0) (b := 0) (Q := fun rows => ∀ c, rows c = []) hb.inv
      ((releaseRows_ends (hb.inv _) hb.rows_le).imp ?_)) ?_
    · rintro _ t ⟨hi', hrows, ht⟩
      exact ⟨hi', hrows, by simpa using ht⟩
    · rintro _ s1 ⟨hm, hreq, hctx, hrows⟩
      refine (h.of_moves_tokens hst hm (by rw [hreq, hst]) rfl hctx (h.request r st hst).committed_le fun c => ?_).unclaim r
      rw [hrows c]
      exact .nil

/-- The context of a request changes: it is not claimed, or tokens were processed. -/
theorem Inv.forward {ctx : TextContext} (h : Inv cfg s) (hact : 0 ≤ ctx.tokens.activeLength)
    (hp : s.requests r = none ∨ s.processed r ≤ ctx.tokens.processedLength) :
    Inv cfg { s with contexts := update s.contexts r ctx } := by
  refine ⟨h.pools, fun r' => ?_, fun r' st hst => ?_, h.covered⟩
  · rcases eq_or_ne r' r with rfl | hne
    · simpa [active] using hact
    · simpa [active, hne] using h.active_nonneg r'
  · obtain ⟨h1, h2⟩ := h.request r' st hst
    rcases eq_or_ne r' r with rfl | hne
    · rcases hp with hp | hp
      · rw [hp] at hst
        cases hst
      · refine ⟨?_, fun c => ?_⟩
        · simpa [processed] using h1.trans hp
        · simpa [processed, rowsOf] using (h2 c).mono hp
    · refine ⟨?_, fun c => ?_⟩
      · simpa [processed, hne] using h1
      · simpa [processed, rowsOf, hne] using h2 c

/-- Publishing keeps the nulls of every row, and commits no more than was processed. -/
theorem stepCommit_ends (hst : s.requests r = some st) (hb : Backed cfg r st.replicaIdx s 0)
    (hle : st.committedIdx ≤ s.processed r) : Ends ((stepCommit cfg r : ManagerEff C H R Unit) s)
      (fun _ s' => Moves cfg r st.replicaIdx s 0 s' 0 ∧ s'.contexts = s.contexts ∧
        (∀ c, SameNulls (s.rowsOf r c) (s'.rowsOf r c)) ∧ ∃ st', s'.requests r = some st' ∧
          st'.replicaIdx = st.replicaIdx ∧ st'.committedIdx ≤ s.processed r) KvError.Other := by
  rw [stepCommit, bind_of_ok (stateOf_ok hst)]
  split_ifs
  swap
  · exact ⟨.refl hb.inv 0, rfl, fun c => ⟨rfl, fun _ => Iff.rfl⟩, st, hst, rfl, hle⟩
  rw [commitBlocksIntoPrefixCache]
  refine bind (computeHashesForRequest_ends hst) ?_
  rintro hashes _ rfl
  generalize hs1 : ({ s with requests := update s.requests r (some { st with hashes }) } : JengaBlockManager C H R) = s1
  have hm1 : Moves cfg r st.replicaIdx s 0 s1 0 := hs1 ▸ .of_request hb.inv 0 _
  have hst1 : s1.requests r = some { st with hashes } := by simp [← hs1]
  have hrows1 : s1.rowsOf r = s.rowsOf r := by rw [← hs1]; rfl
  have hctx1 : s1.contexts = s.contexts := by rw [← hs1]
  have hb1 := hm1.backed hb
  rw [bind_of_ok (stateOf_ok hst1)]
  simp only [bind_get]
  refine bind (onTree_ends (a := 0) (b := 0) (Q := fun rows => ∀ c, SameNulls (s1.rowsOf r c) (rows c)) hb1.inv
    ((commitRows_ends (hb1.inv _) hb1.rows_le
      (min_le_right _ _)).imp ?_)) ?_
  · rintro _ t ⟨hi', hrows, ht⟩
    exact ⟨hi', hrows, by simpa using ht⟩
  rintro _ s2 ⟨hm2, hreq2, hctx2, hrows2⟩
  have hlast : min (numFilledBlocks cfg (s1.contexts r)) hashes.length * cfg.blockSize ≤
      s.processed r := by
    refine le_trans (Nat.mul_le_mul_right _ (min_le_left _ _)) ?_
    rw [numFilledBlocks, hctx1]
    exact Nat.div_mul_le_self _ _
  generalize min (numFilledBlocks cfg (s1.contexts r)) hashes.length * cfg.blockSize = committedIdx
    at hlast ⊢
  have hdone := (hm1.trans hm2).trans (.of_request hm2.inv 0 { st with hashes, committedIdx })
  rw [hrows1] at hrows2
  split_ifs
  · exact ⟨⟨hdone.inv, hdone.trade, hdone.elsewhere, hdone.others⟩, hctx2.trans hctx1, hrows2,
      { st with hashes, committedIdx }, by simp, rfl, hlast⟩
  · exact ⟨hdone, hctx2.trans hctx1, hrows2, { st with hashes, committedIdx }, by simp, rfl, hlast⟩

theorem stepAdvance_ends (hst : s.requests r = some st) (hb : Backed cfg r st.replicaIdx s 0) :
    Ends ((stepAdvance cfg r : ManagerEff C H R Unit) s)
      (fun _ s' => Moves cfg r st.replicaIdx s 0 s' 0 ∧ s'.requests = s.requests ∧ s'.contexts = s.contexts ∧
        ∀ c, Advanced cfg.blockSize (cfg.group c) (s.processed r / cfg.blockSize) (s.rowsOf r c) (s'.rowsOf r c))
      KvError.Other := by
  rw [stepAdvance, bind_of_ok (stateOf_ok hst), bind_get]
  refine onTree_ends (Q := fun rows => ∀ c, Advanced cfg.blockSize (cfg.group c)
      (s.processed r / cfg.blockSize) (s.rowsOf r c) (rows c)) hb.inv
    ((advanceRows_ends (hb.inv _) hb.rows_le).imp ?_)
  rintro _ t ⟨hi', hrows, ht⟩
  exact ⟨hi', hrows, by simpa using ht⟩

theorem Inv.stepCommit_ends (h : Inv cfg s) (hst : s.requests r = some st) :
    Ends ((stepCommit cfg r : ManagerEff C H R Unit) s)
      (fun _ s' => Inv cfg s' ∧ ∃ st', s'.requests r = some st' ∧ st'.replicaIdx = st.replicaIdx) KvError.Other := by
  have hok := h.request r st hst
  refine (JengaBlockManager.stepCommit_ends hst (h.backed hst) hok.committed_le).imp ?_
  rintro _ s' ⟨hm, hctx, hrows, st', hst', hρ, hle⟩
  exact ⟨h.of_moves_tokens hst hm hst' hρ hctx hle fun c => (hok.rows c).sameNulls (hrows c), st', hst', hρ⟩

theorem Inv.step_ends (h : Inv cfg s) : Ends ((step cfg r : ManagerEff C H R Unit) s) (fun _ s' => Inv cfg s')
      KvError.Other := by
  rw [step]
  cases hst : s.requests r with
  | none =>
    have herr : (stepCommit cfg r : ManagerEff C H R Unit) s = .error (.unclaimed r) s := by
      rw [stepCommit, bind_of_error (stateOf_error hst)]
    rw [bind_of_error herr]
    exact rfl
  | some st =>
    refine bind (h.stepCommit_ends hst) ?_
    rintro _ s1 ⟨h1, st1, hst1, -⟩
    have hok1 := h1.request r st1 hst1
    refine (stepAdvance_ends hst1 (h1.backed hst1)).imp ?_
    rintro _ s2 ⟨hm, hreq, hctx, hrows⟩
    exact h1.of_moves_tokens hst1 hm (by rw [hreq, hst1]) rfl hctx hok1.committed_le fun c =>
      (hok1.rows c).advanced (hrows c)

end MojoProse.KvCache.JengaBlockManager
