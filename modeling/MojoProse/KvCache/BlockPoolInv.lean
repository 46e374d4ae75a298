import MojoProse.KvCache.BlockPool
import MojoProse.Schemes.Ledger

/-! The invariant of a pool and what each operation does to it, with the references the caller has in
    hand before and after. -/

namespace MojoProse.KvCache.BlockPool
open Schemes List Function Dict
variable {H R : Type} {p p' p'' : BlockPool H} {w w' w'' v v' : ℕ → ℕ} {b : ℕ}

/-- A block one holder has to itself, with nothing published. -/
def Fresh (p : BlockPool H) (b : ℕ) : Prop := p.refCnt b = 1 ∧ p.blockHash b = none

/-- From `p` with `w` in hand to `p'` with `w'` in hand. An unpublished block that others hold is left to them. -/
structure Deals (p : BlockPool H) (w : ℕ → ℕ) (p' : BlockPool H) (w' : ℕ → ℕ) : Prop where
  trade : Trades p.refCnt w p'.refCnt w'
  others : ∀ b, p.refCnt b ≠ 0 → p.blockHash b = none → w b = 0 →
    p'.blockHash b = none ∧ w' b = 0

namespace Deals

theorem refl (p : BlockPool H) (w : ℕ → ℕ) : Deals p w p w := ⟨.refl _ _, fun _ _ hh hw => ⟨hh, hw⟩⟩

section

variable (h : Deals p w p' w')
include h

theorem refCnt_eq (hw : w b = 0) (hw' : w' b = 0) : p'.refCnt b = p.refCnt b := by
  have := h.trade b
  omega

theorem trans (h' : Deals p' w' p'' w'') : Deals p w p'' w'' := by
  refine ⟨h.trade.trans h'.trade, fun b hr hh hw => ?_⟩
  obtain ⟨hh', hw'⟩ := h.others b hr hh hw
  exact h'.others b (by rwa [h.refCnt_eq hw hw']) hh' hw'

theorem frame (v : ℕ → ℕ) : Deals p (w + v) p' (w' + v) := by
  refine ⟨h.trade.frame v, fun b hr hh hw => ?_⟩
  simp only [Pi.add_apply, Nat.add_eq_zero_iff] at hw ⊢
  obtain ⟨hh', hw'⟩ := h.others b hr hh hw.1
  exact ⟨hh', hw', hw.2⟩

theorem seq (h' : Deals p' v p'' v') : Deals p (w + v) p'' (w' + v') := by
  have h2 := h'.frame w'
  rw [add_comm v, add_comm v'] at h2
  exact (h.frame v).trans h2

theorem fresh (hb : p.Fresh b) (hw : w b = 0) : p'.Fresh b := by
  obtain ⟨hh', hw'⟩ := h.others b (by rw [hb.1]; decide) hb.2 hw
  exact ⟨(h.refCnt_eq hw hw').trans hb.1, hh'⟩

end

end Deals

theorem trades_of_succ (hr : p'.refCnt = update p.refCnt b (p.refCnt b + 1)) :
    Trades p.refCnt 0 p'.refCnt (tally [b]) := by
  intro c
  rw [hr]
  rcases eq_or_ne c b with rfl | hne
  · simp [tally]
  · simp [tally, hne, Ne.symm hne]

theorem trades_of_pred (hr : p'.refCnt = update p.refCnt b (p.refCnt b - 1))
    (hpos : p.refCnt b ≠ 0) : Trades p.refCnt (tally [b]) p'.refCnt 0 := by
  intro c
  rw [hr]
  rcases eq_or_ne c b with rfl | hne
  · simp only [tally, update_self, count_singleton_self, Pi.zero_apply]
    omega
  · simp [tally, hne, Ne.symm hne]

variable [DecidableEq H]

structure Inv (total : ℕ) (p : BlockPool H) : Prop where
  free_nodup : p.freeBlockQueue.Nodup
  free_mem : ∀ b, b ∈ p.freeBlockQueue ↔ b < total ∧ p.refCnt b = 0
  ref_real : ∀ b, p.refCnt b ≠ 0 → b < total
  hash_real : ∀ b, p.blockHash b ≠ none → b < total
  cache : ∀ h b, p.prefixCache.get? h = some b ↔ p.blockHash b = some h

variable {total : ℕ} {h : H} {activeBids : List ℕ}

theorem inv_new : Inv total (new total : BlockPool H) where
  free_nodup := nodup_range
  free_mem := by simp [new]
  ref_real := by simp [new]
  hash_real := by simp [new]
  cache := by simp [new]

theorem Inv.holds_iff (hi : Inv total p) : p.holds h = true ↔ ∃ b, p.blockHash b = some h := by
  simp only [holds, Option.isSome_iff_exists, hi.cache]

theorem real_update {α : Type} {f : ℕ → α} {none : α} (hreal : b < total) (hf : ∀ c, f c ≠ none → c < total) (v : α) :
    ∀ c, update f b v c ≠ none → c < total := by
  intro c hc
  rcases eq_or_ne c b with rfl | hne
  · exact hreal
  · exact hf c (by rwa [update_of_ne hne] at hc)

theorem Inv.setRefCnt (hi : Inv total p) (hreal : b < total) {n : ℕ} {queue : List ℕ} (hnd : queue.Nodup)
    (hb : b ∈ queue ↔ n = 0) (hother : ∀ c, c ≠ b → (c ∈ queue ↔ c ∈ p.freeBlockQueue)) :
    Inv total { p.setRefCnt b n with freeBlockQueue := queue } := by
  refine ⟨hnd, fun c => ?_, real_update hreal hi.ref_real n, hi.hash_real, hi.cache⟩
  rcases eq_or_ne c b with rfl | hne
  · simp [BlockPool.setRefCnt, hb, hreal]
  · simp [BlockPool.setRefCnt, hne, hother c hne, hi.free_mem]

theorem touch_ok (hi : Inv total p) (hb : p.refCnt b ≠ 0 ∨ p.blockHash b ≠ none) :
    ∃ p', (touch b : Eff H R Unit) p = .ok () p' ∧ Inv total p' ∧
      p'.refCnt = update p.refCnt b (p.refCnt b + 1) ∧ p'.blockHash = p.blockHash ∧ p'.prefixCache = p.prefixCache := by
  have hreal : b < total := hb.elim (hi.ref_real b) (hi.hash_real b)
  have hmem : b ∈ p.freeBlockQueue ↔ p.refCnt b = 0 := by simp [hi.free_mem, hreal]
  rcases eq_or_ne (p.refCnt b) 0 with hzero | hpos
  · refine ⟨_, ?_, hi.setRefCnt hreal (hi.free_nodup.erase b) (n := p.refCnt b + 1) ?_ fun c hc => ?_, rfl, rfl, rfl⟩
    · rw [touch, bind_get]
      simp only [if_pos hzero, if_neg (not_not.mpr (hmem.mpr hzero))]
      rfl
    · simp [hi.free_nodup.mem_erase_iff]
    · exact mem_erase_of_ne hc
  · refine ⟨_, ?_, hi.setRefCnt hreal hi.free_nodup (n := p.refCnt b + 1) (by simp [hmem, hpos]) fun c _ => Iff.rfl,
      rfl, rfl, rfl⟩
    rw [touch, bind_get]
    simp only [hpos, if_false]
    rfl

theorem touch_published (hi : Inv total p) (hb : p.blockHash b ≠ none) :
    ∃ p', (touch b : Eff H R Unit) p = .ok () p' ∧ Inv total p' ∧ Deals p 0 p' (tally [b]) ∧
      p'.blockHash = p.blockHash ∧ p'.prefixCache = p.prefixCache := by
  obtain ⟨p', hok, hi', hr, hh, hc⟩ := touch_ok hi (.inr hb)
  refine ⟨p', hok, hi', ⟨trades_of_succ hr, fun c _ hnone _ => ?_⟩, hh, hc⟩
  refine ⟨by rw [hh, hnone], ?_⟩
  rw [tally_eq_zero_iff, mem_singleton]
  rintro rfl
  exact hb hnone

section
variable (hi : Inv total p) (hb : p.refCnt b ≠ 0)
include hi hb

theorem touch_held : ∃ p', (touch b : Eff H R Unit) p = .ok () p' ∧ Inv total p' ∧
      Deals p (tally [b]) p' (tally [b] + tally [b]) ∧ p'.blockHash = p.blockHash := by
  obtain ⟨p', hok, hi', hr, hh, -⟩ := touch_ok hi (.inl hb)
  refine ⟨p', hok, hi', ⟨?_, fun c _ hnone hw => ?_⟩, hh⟩
  · simpa using (trades_of_succ hr).frame (tally [b])
  · rw [hh, Pi.add_apply, hw]
    exact ⟨hnone, rfl⟩

theorem freeBlock_ok : ∃ p', (freeBlock total b : Eff H R Unit) p = .ok () p' ∧ Inv total p' ∧
      Deals p (tally [b]) p' 0 ∧ p'.blockHash = p.blockHash ∧ p'.prefixCache = p.prefixCache := by
  have hreal := hi.ref_real b hb
  have hmem : b ∉ p.freeBlockQueue := fun hmem => hb ((hi.free_mem b).mp hmem).2
  have hdeal : ∀ q : BlockPool H, q.refCnt = update p.refCnt b (p.refCnt b - 1) →
      q.blockHash = p.blockHash → Deals p (tally [b]) q 0 := fun q hr hh =>
    ⟨trades_of_pred hr hb, fun c _ hnone _ => ⟨by rw [hh, hnone], rfl⟩⟩
  rcases eq_or_ne (p.refCnt b) 1 with hone | hmore
  · have hnd : (p.freeBlockQueue ++ [b]).Nodup := by simpa using hi.free_nodup.concat hmem
    refine ⟨_, ?_, hi.setRefCnt hreal (n := p.refCnt b - 1) hnd ?_ fun c hc => ?_, hdeal _ rfl rfl, rfl, rfl⟩
    · rw [freeBlock, if_neg hreal.ne, bind_get]
      simp only [hone, one_ne_zero, if_false, if_true]
      rfl
    · simp [hone]
    · simp [hc]
  · refine ⟨_, ?_, hi.setRefCnt hreal (n := p.refCnt b - 1) hi.free_nodup (iff_of_false hmem ?_) fun c _ => Iff.rfl,
      hdeal _ rfl rfl, rfl, rfl⟩
    · rw [freeBlock, if_neg hreal.ne, bind_get]
      simp only [hb, hmore, if_false]
      rfl
    · omega

theorem commitIntoPrefixCache_ok (hnone : p.blockHash b = none)
    (hh : p.holds h = false) : ∃ p', (commitIntoPrefixCache total h b : Eff H R Unit) p = .ok () p' ∧ Inv total p' ∧
      Deals p (tally [b]) p' (tally [b]) ∧ p'.blockHash = update p.blockHash b (some h) := by
  have hreal := hi.ref_real b hb
  have hget : p.prefixCache.get? h = none := by simpa [holds] using hh
  have hnew := get?_eq_none_iff.mp hget
  refine ⟨{ p.setHash b (some h) with prefixCache := p.prefixCache.insertNew h b hnew }, ?_, ?_, ?_, rfl⟩
  · simp only [commitIntoPrefixCache, hreal.ne, if_false, bind_get, hnone, ne_eq, not_true_eq_false, bind_modify]
    rw [dif_neg (show h ∉ (p.setHash b (some h)).prefixCache.entries.map Prod.fst from hnew)]
    rfl
  · refine ⟨hi.free_nodup, hi.free_mem, hi.ref_real, real_update hreal hi.hash_real _, fun h' c => ?_⟩
    simp only [setHash, get?_insertNew, hi.cache]
    rcases eq_or_ne c b with rfl | hne
    · simp [hnone, eq_comm]
    · simp [hne]
  · refine ⟨.refl _ _, fun c _ hc hw => ⟨?_, hw⟩⟩
    rw [tally_eq_zero_iff, mem_singleton] at hw
    simp [setHash, hw, hc]

end

/-- Publishing a fresh block, or trading it for the block that is published already. -/
theorem getOrCommitIntoPrefixCache_ok (hi : Inv total p) (hb : p.Fresh b) (h : H) :
    ∃ t p', (getOrCommitIntoPrefixCache total h b : Eff H R (Option ℕ)) p = .ok t p' ∧ Inv total p' ∧
      Deals p (tally [b]) p' (tally [t.getD b]) := by
  have hpos : p.refCnt b ≠ 0 := by rw [hb.1]; decide
  cases hget : p.prefixCache.get? h with
  | none =>
    obtain ⟨p', hok, hi', hd, -⟩ := commitIntoPrefixCache_ok (h := h) hi hpos hb.2 (by simp [holds, hget])
    refine ⟨none, p', ?_, hi', hd⟩
    simp only [getOrCommitIntoPrefixCache, bind_get, hget]
    rw [bind_of_ok hok]
    rfl
  | some twin =>
    have htwin := (hi.cache h twin).mp hget
    have hne : b ≠ twin := by
      rintro rfl
      rw [hb.2] at htwin
      cases htwin
    obtain ⟨p1, hok1, hi1, hd1, hh1, -⟩ := touch_published (b := twin) hi (by simp [htwin])
    have hb1 : p1.Fresh b := hd1.fresh hb rfl
    obtain ⟨p2, hok2, hi2, hd2, -⟩ := freeBlock_ok hi1 (by rw [hb1.1]; decide)
    refine ⟨some twin, p2, ?_, hi2, by simpa using hd1.seq hd2⟩
    simp only [getOrCommitIntoPrefixCache, bind_get, hget, hne, if_false]
    rw [bind_of_ok hok1]
    simp only [bind_get, hb1.2, ne_eq, not_true_eq_false, if_false]
    rw [bind_of_ok hok2]
    rfl

def taken (p : BlockPool H) (b : ℕ) (rest : List ℕ) : BlockPool H where
  freeBlockQueue := rest
  refCnt := update p.refCnt b (p.refCnt b + 1)
  blockHash := update p.blockHash b none
  prefixCache := match p.blockHash b with
    | none => p.prefixCache
    | some h => p.prefixCache.erase h

theorem uncommitBlock_eq (hh : p.blockHash b = some h) (hholds : p.holds h = true) :
    (uncommitBlock b : Eff H R Unit) p = .ok () ({ p with prefixCache := p.prefixCache.erase h }.setHash b none) := by
  rw [uncommitBlock, bind_get]
  simp only [hh, hholds, if_true]
  rfl

theorem allocBlock_eq (hi : Inv total p) {rest : List ℕ} (hq : p.freeBlockQueue = b :: rest) :
    (allocBlock : Eff H R _) p = .ok (b, p.blockHash b) (p.taken b rest) := by
  have hzero : p.refCnt b = 0 := ((hi.free_mem b).mp (by simp [hq])).2
  rw [allocBlock, bind_get]
  simp only [hq]
  cases hh : p.blockHash b with
  | none =>
    have hsame : update p.blockHash b none = p.blockHash := update_eq_self_iff.mpr hh.symm
    simp only [taken, hh, hsame, ne_eq, if_neg (not_not.mpr hzero), Option.isSome_none,
      Bool.false_eq_true, if_false, bind_set, bind_modify, bind_get, setRefCnt, not_true_eq_false]
    rfl
  | some h =>
    have hholds : p.holds h = true := hi.holds_iff.mpr ⟨b, hh⟩
    simp only [taken, hh, ne_eq, if_neg (not_not.mpr hzero), Option.isSome_some, if_true, bind_set]
    rw [bind_of_ok (uncommitBlock_eq (p := { p with freeBlockQueue := rest }) hh hholds)]
    simp only [bind_modify, bind_get, setRefCnt, setHash, update_self, not_true_eq_false, if_false]
    rfl

theorem allocBlock_ok (hi : Inv total p) (hfree : p.numFreeBlocks ≠ 0) :
    ∃ b e p', (allocBlock : Eff H R _) p = .ok (b, e) p' ∧ Inv total p' ∧ Deals p 0 p' (tally [b]) ∧
      p.refCnt b = 0 ∧ p'.Fresh b ∧ p'.numFreeBlocks + 1 = p.numFreeBlocks ∧
      ∀ h, p'.holds h = true → p.holds h = true := by
  cases hq : p.freeBlockQueue with
  | nil => simp [numFreeBlocks, hq] at hfree
  | cons b rest =>
    obtain ⟨hreal, hzero⟩ := (hi.free_mem b).mp (by simp [hq])
    have hnd := hi.free_nodup
    rw [hq, nodup_cons] at hnd
    have hcache : ∀ h c, (p.taken b rest).prefixCache.get? h = some c ↔
        update p.blockHash b none c = some h := by
      intro h c
      rw [taken]
      cases hh : p.blockHash b with
      | none =>
        rw [hi.cache, update_eq_self_iff.mpr hh.symm]
      | some h' =>
        rw [get?_erase, hi.cache]
        rcases eq_or_ne c b with rfl | hne
        · simp [hh, eq_comm]
        · simp only [update_of_ne hne, and_iff_left_iff_imp]
          rintro hc rfl
          exact hne (Option.some.inj (((hi.cache h c).mpr hc).symm.trans ((hi.cache h b).mpr hh)))
    refine ⟨b, _, _, allocBlock_eq hi hq, ⟨hnd.2, fun c => ?_, real_update hreal hi.ref_real _,
      real_update hreal hi.hash_real _, hcache⟩, ⟨trades_of_succ rfl, fun c hc hnone _ => ?_⟩, hzero, ?_, ?_, ?_⟩
    · have hmem := hi.free_mem c
      rw [hq, mem_cons] at hmem
      rcases eq_or_ne c b with rfl | hne
      · simp [taken, hnd.1]
      · simpa [taken, hne] using hmem
    · have hne : c ≠ b := by
        rintro rfl
        exact hc hzero
      simp [taken, hne, hnone, tally, Ne.symm hne]
    · exact ⟨by simp [taken, hzero], by simp [taken]⟩
    · simp [numFreeBlocks, taken, hq]
    · intro h hh
      rw [holds, Option.isSome_iff_exists] at hh
      obtain ⟨c, hc⟩ := hh
      rw [hcache] at hc
      rcases eq_or_ne c b with rfl | hne
      · simp at hc
      · exact hi.holds_iff.mpr ⟨c, by rwa [update_of_ne hne] at hc⟩

/-- The loop of `reset_prefix_cache` when the entries `rest` are still to come. -/
structure Resetting (p : BlockPool H) (rest : List (H × ℕ)) (q : BlockPool H) : Prop where
  keys_nodup : (rest.map Prod.fst).Nodup
  published : ∀ e ∈ rest, p.blockHash e.2 = some e.1
  refCnt : q.refCnt = p.refCnt
  queue : q.freeBlockQueue = p.freeBlockQueue
  cache : q.prefixCache = p.prefixCache
  blockHash : ∀ b, q.blockHash b =
    if p.refCnt b = 0 ∧ ∀ e ∈ rest, e.2 ≠ b then none else p.blockHash b

omit [DecidableEq H] in
theorem Resetting.step {q : BlockPool H} {e : H × ℕ} {rest : List (H × ℕ)} (hr : Resetting p (e :: rest) q) :
    Ends ((do
        let q ← get
        if q.blockHash e.2 = none then throw .poolAssertion
        if q.refCnt e.2 = 0 then set (q.setHash e.2 none) : Eff H R Unit) q)
      (fun _ q' => Resetting p rest q') (fun _ _ => False) := by
  have hnd := hr.keys_nodup
  rw [map_cons, nodup_cons] at hnd
  have he := hr.published e (by simp)
  have hother : ∀ e' ∈ rest, e'.2 ≠ e.2 := by
    intro e' he' heq
    have := hr.published e' (mem_cons_of_mem _ he')
    rw [heq, he] at this
    exact hnd.1 (mem_map.mpr ⟨e', he', (Option.some.inj this).symm⟩)
  have hqe : q.blockHash e.2 = some e.1 := by rw [hr.blockHash, if_neg (by simp), he]
  have hrest : ∀ b, b ≠ e.2 → q.blockHash b =
      if p.refCnt b = 0 ∧ ∀ e ∈ rest, e.2 ≠ b then none else p.blockHash b := by
    intro b hb
    rw [hr.blockHash]
    simp only [forall_mem_cons, Ne.symm hb, ne_eq, not_false_eq_true, true_and]
  have hpub : ∀ e ∈ rest, p.blockHash e.2 = some e.1 := fun e he =>
    hr.published e (mem_cons_of_mem _ he)
  rw [bind_get]
  simp only [hqe, reduceCtorEq, if_false]
  rcases eq_or_ne (q.refCnt e.2) 0 with hzero | hpos
  · rw [if_pos hzero]
    refine ⟨hnd.2, hpub, hr.refCnt, hr.queue, hr.cache, fun b => ?_⟩
    rcases eq_or_ne b e.2 with rfl | hb
    · rw [if_pos ⟨by rw [← hr.refCnt, hzero], hother⟩]
      simp [setHash]
    · simpa [setHash, hb] using hrest b hb
  · rw [if_neg hpos]
    refine ⟨hnd.2, hpub, hr.refCnt, hr.queue, hr.cache, fun b => ?_⟩
    rcases eq_or_ne b e.2 with rfl | hb
    · rw [if_neg (by simp [← hr.refCnt, hpos]), hqe, he]
    · exact hrest b hb

theorem resetPrefixCache_ends (hi : Inv total p) :
    Ends ((resetPrefixCache : Eff H R Unit) p) (fun _ p' => Inv total p' ∧ Deals p 0 p' 0) (fun _ _ => False) := by
  rw [resetPrefixCache, bind_get]
  refine Ends.bind (Ends.forM (I := Resetting p) (fun _ _ _ hr => hr.step) _ p
    ⟨p.prefixCache.nodup, ?_, rfl, rfl, rfl, ?_⟩) fun _ q hq => ?_
  · rintro ⟨h, b⟩ he
    exact (hi.cache h b).mp (get?_eq_some_iff.mpr he)
  · intro b
    split_ifs with hb
    · cases hh : p.blockHash b with
      | none => rfl
      | some h => exact absurd rfl (hb.2 (h, b) (get?_eq_some_iff.mp ((hi.cache h b).mpr hh)))
    · rfl
  · have hhash : ∀ b, q.blockHash b = if p.refCnt b = 0 then none else p.blockHash b := by
      intro b
      simpa using hq.blockHash b
    refine ⟨⟨?_, fun b => ?_, fun b hb => ?_, fun b hb => ?_, fun h b => ?_⟩, ⟨fun b => ?_, ?_⟩⟩
    · simpa [hq.queue] using hi.free_nodup
    · simpa [hq.queue, hq.refCnt] using hi.free_mem b
    · exact hi.ref_real b (by simpa [hq.refCnt] using hb)
    · refine hi.hash_real b fun hnone => hb ?_
      simp [hhash, hnone]
    · simp only [get?_filter, hq.cache, hi.cache, hhash, hq.refCnt]
      split_ifs with h0 <;> simp [h0]
    · simp [hq.refCnt]
    · intro b hb hnone _
      simp [hhash, hb, hnone]

theorem assertRuntimeInvariants_ok (hi : Inv total p)
    (hcnt : p.numFreeBlocks + activeBids.dedup.length = total) (enableRuntimeChecks : Bool) :
    (assertRuntimeInvariants enableRuntimeChecks total activeBids : Eff H R Unit) p = .ok () p := by
  have hcache : (p.prefixCache.entries.any fun e => p.blockHash e.2 ≠ some e.1) = false := by
    rw [any_eq_false]
    rintro ⟨h, b⟩ he
    simp [(hi.cache h b).mp (get?_eq_some_iff.mpr he)]
  cases enableRuntimeChecks with
  | false => rfl
  | true =>
    rw [assertRuntimeInvariants, if_pos rfl, bind_get]
    simp only [hcache, hcnt, ne_eq, not_true_eq_false, if_false, Bool.false_eq_true]
    rfl

theorem Inv.free_add_active (hi : Inv total p) (hact : ∀ b, b ∈ activeBids ↔ p.refCnt b ≠ 0) :
    p.numFreeBlocks + activeBids.dedup.length = total := by
  have hperm : (p.freeBlockQueue ++ activeBids.dedup).Perm (range total) := by
    rw [perm_ext_iff_of_nodup _ nodup_range]
    · intro b
      rw [mem_append, hi.free_mem, mem_dedup, hact, mem_range]
      constructor
      · rintro (h | h)
        · exact h.1
        · exact hi.ref_real b h
      · intro h
        by_cases h0 : p.refCnt b = 0
        · exact .inl ⟨h, h0⟩
        · exact .inr h0
    · rw [nodup_append]
      refine ⟨hi.free_nodup, nodup_dedup _, ?_⟩
      rintro b hb c hc rfl
      rw [mem_dedup, hact] at hc
      exact hc ((hi.free_mem b).mp hb).2
  simpa [numFreeBlocks] using hperm.length_eq

end MojoProse.KvCache.BlockPool
