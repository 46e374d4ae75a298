import MojoProse.KvCache.BlockManager
import MojoProse.KvCache.BlockPoolInv

/-! The loops of `BlockManager` on the pool of one replica: what each leaves in hand.

    Only the publication of copies can fail, when a chain has one hash twice, and the publication of a
    complete load, when one of its hashes is published already. -/

namespace MojoProse.KvCache.BlockManager
open Schemes BlockPool List Dict Function Prod Deals
variable {H R : Type} {total b : ℕ} {p p' p₀ : BlockPool H} {blocks : List ℕ}

theorem refCnt_ne_zero {w : ℕ → ℕ} (hw : w ≤ p.refCnt) (hb : w b ≠ 0) : p.refCnt b ≠ 0 := by
  have := Pi.le_def.mp hw b
  omega

theorem tally_cons_le {l : List ℕ} (h : tally (b :: l) ≤ p.refCnt) : p.refCnt b ≠ 0 ∧ tally [b] + tally l ≤ p.refCnt :=
  ⟨refCnt_ne_zero h (by simp [tally]), tally_cons b l ▸ h⟩

def pinsOf (l : List (PagedTransfer H)) : ℕ → ℕ := tally (l.flatMap PagedTransfer.blocks)

theorem pinsOf_cons (t : PagedTransfer H) (l : List (PagedTransfer H)) :
    pinsOf (t :: l) = tally t.blocks + pinsOf l := by
  rw [pinsOf, flatMap_cons, tally_append, pinsOf]

theorem pinsOf_concat (t : PagedTransfer H) (l : List (PagedTransfer H)) :
    pinsOf (l ++ [t]) = pinsOf l + tally t.blocks := by
  rw [pinsOf, flatMap_append, tally_append, pinsOf, flatMap_cons, flatMap_nil, append_nil]

/-- The copies still to be published: each has its own fresh block in hand. -/
structure Unpublished (blocks : List ℕ) (copies : List (H × ℕ × ℕ)) (p : BlockPool H) : Prop where
  dst_nodup : (copies.map fun e => e.2.1).Nodup
  dst_fresh : ∀ e ∈ copies, p.Fresh e.2.1
  dst_mem : ∀ e ∈ copies, e.2.1 ∈ blocks

theorem Unpublished.perm {copies copies' : List (H × ℕ × ℕ)}
    (h : Unpublished blocks copies p) (hp : copies'.Perm copies) : Unpublished blocks copies' p :=
  ⟨(hp.map _).nodup_iff.mpr h.dst_nodup, fun e he => h.dst_fresh e (hp.mem_iff.mp he),
    fun e he => h.dst_mem e (hp.mem_iff.mp he)⟩

variable [DecidableEq H] {cfg : BlockManagerConfig H}

theorem forM_freeBlock_ok (l : List ℕ) : ∀ {p : BlockPool H}, p.Inv total → tally l ≤ p.refCnt →
    ∃ p', (l.forM (freeBlock total) : BlockPool.Eff H R Unit) p = .ok () p' ∧ p'.Inv total ∧
      Deals p (tally l) p' 0 := by
  induction l with
  | nil => exact fun {p} hi _ => ⟨p, rfl, hi, by simpa using refl p 0⟩
  | cons b l ih =>
    intro p hi hc
    obtain ⟨hb, hrest⟩ := tally_cons_le hc
    obtain ⟨p1, hok1, hi1, hd1, -⟩ := freeBlock_ok hi hb
    obtain ⟨p2, hok2, hi2, hd2⟩ := ih hi1 (by simpa using hd1.trade.covers hrest)
    refine ⟨p2, (bind_of_ok hok1).trans hok2, hi2, ?_⟩
    rw [tally_cons]
    simpa using hd1.seq hd2

theorem forM_touch_published (l : List ℕ) : ∀ {p : BlockPool H}, p.Inv total → (∀ b ∈ l, p.blockHash b ≠ none) →
    ∃ p', (l.forM touch : BlockPool.Eff H R Unit) p = .ok () p' ∧ p'.Inv total ∧ Deals p 0 p' (tally l) := by
  induction l with
  | nil => exact fun {p} hi _ => ⟨p, rfl, hi, by simpa using refl p 0⟩
  | cons b l ih =>
    intro p hi hl
    obtain ⟨p1, hok1, hi1, hd1, hh1, -⟩ := touch_published hi (hl b (by simp))
    obtain ⟨p2, hok2, hi2, hd2⟩ := ih hi1 fun c hc => by
      rw [hh1]
      exact hl c (mem_cons_of_mem _ hc)
    refine ⟨p2, (bind_of_ok hok1).trans hok2, hi2, ?_⟩
    rw [tally_cons]
    simpa using hd1.seq hd2

theorem forM_touch_held (l : List ℕ) : ∀ {p : BlockPool H}, p.Inv total → tally l ≤ p.refCnt →
    ∃ p', (l.forM touch : BlockPool.Eff H R Unit) p = .ok () p' ∧ p'.Inv total ∧
      Deals p (tally l) p' (tally l + tally l) := by
  induction l with
  | nil => exact fun {p} hi _ => ⟨p, rfl, hi, by simpa using refl p 0⟩
  | cons b l ih =>
    intro p hi hc
    obtain ⟨hb, hrest⟩ := tally_cons_le hc
    obtain ⟨p1, hok1, hi1, hd1, -⟩ := touch_held hi hb
    obtain ⟨p2, hok2, hi2, hd2⟩ := ih hi1 (le_add_self.trans (hd1.trade.covers hrest))
    refine ⟨p2, (bind_of_ok hok1).trans hok2, hi2, ?_⟩
    rw [tally_cons, add_add_add_comm]
    exact hd1.seq hd2

/-- The hashes of an onload and its blocks go together. -/
def Matched (t : PagedTransfer H) : Prop :=
  ∀ hashes, t.commitHashes = some hashes → hashes.length = t.blocks.length

theorem commitDeferred_ok : ∀ (blocks : List ℕ) (hashes : List H) {p : BlockPool H}, p.Inv total →
    tally blocks ≤ p.refCnt → hashes.length = blocks.length →
    ∃ p', (commitDeferred total blocks hashes : BlockPool.Eff H R Unit) p = .ok () p' ∧ p'.Inv total ∧
      Deals p (tally blocks) p' (tally blocks)
  | [], [], p, hi, _, _ => ⟨p, rfl, hi, .refl _ _⟩
  | b :: blocks, h :: hashes, p, hi, hc, hlen => by
    obtain ⟨hb, hrest⟩ := tally_cons_le hc
    have hlen' : hashes.length = blocks.length := by simpa using hlen
    have hstep : ∃ p1, ((if p.blockHash b = none ∧ p.holds h = false then
          commitIntoPrefixCache total h b else pure ()) : BlockPool.Eff H R Unit) p = .ok () p1 ∧
        p1.Inv total ∧ Deals p (tally [b]) p1 (tally [b]) := by
      split_ifs with hcond
      · obtain ⟨p1, hok, hi1, hd, -⟩ := commitIntoPrefixCache_ok (R := R) hi hb hcond.1 hcond.2
        exact ⟨p1, hok, hi1, hd⟩
      · exact ⟨p, rfl, hi, .refl _ _⟩
    obtain ⟨p1, hok1, hi1, hd1⟩ := hstep
    have hc1 : tally blocks ≤ p1.refCnt := le_add_self.trans (hd1.trade.covers hrest)
    obtain ⟨p2, hok2, hi2, hd2⟩ := commitDeferred_ok blocks hashes hi1 hc1 hlen'
    refine ⟨p2, ?_, hi2, ?_⟩
    · rw [commitDeferred, bind_get]
      split_ifs at hok1 ⊢ with hcond
      · exact (bind_of_ok hok1).trans hok2
      · cases hok1
        exact hok2
    · rw [tally_cons]
      exact hd1.seq hd2

theorem landTransfer_ok {t : PagedTransfer H} (hi : p.Inv total) (hc : tally t.blocks ≤ p.refCnt) (hm : Matched t) :
    ∃ p', (landTransfer total t : BlockPool.Eff H R Unit) p = .ok () p' ∧ p'.Inv total ∧
      Deals p (tally t.blocks) p' 0 := by
  obtain ⟨blocks, commitHashes⟩ := t
  cases commitHashes with
  | none => exact forM_freeBlock_ok blocks hi hc
  | some hashes =>
    obtain ⟨p1, hok1, hi1, hd1⟩ := commitDeferred_ok blocks hashes hi hc (hm hashes rfl)
    obtain ⟨p2, hok2, hi2, hd2⟩ := forM_freeBlock_ok blocks hi1 (hd1.trade.covered hc)
    exact ⟨p2, (bind_of_ok hok1).trans hok2, hi2, hd1.trans hd2⟩

theorem pollPending_ok (landed : ℕ → Bool) : ∀ (l : List (PagedTransfer H)) (i : ℕ) {p : BlockPool H},
    p.Inv total → pinsOf l ≤ p.refCnt → (∀ t ∈ l, Matched t) →
    ∃ still p', (pollPending total landed i l : BlockPool.Eff H R _) p = .ok still p' ∧ p'.Inv total ∧
      Deals p (pinsOf l) p' (pinsOf still) ∧ ∀ t ∈ still, t ∈ l
  | [], _, p, hi, _, _ => ⟨[], p, rfl, hi, .refl _ _, by simp⟩
  | t :: rest, i, p, hi, hc, hm => by
    rw [pinsOf_cons] at hc
    have hrest : ∀ t ∈ rest, Matched t := fun t ht => hm t (mem_cons_of_mem _ ht)
    cases hl : landed i with
    | false =>
      obtain ⟨still, p', hok, hi', hd, hsub⟩ :=
        pollPending_ok landed rest (i + 1) hi (le_add_self.trans hc) hrest
      refine ⟨t :: still, p', ?_, hi', ?_, ?_⟩
      · simp only [pollPending, hl, Bool.false_eq_true, if_false]
        rw [bind_of_ok hok]
        rfl
      · rw [pinsOf_cons, pinsOf_cons, add_comm, add_comm (tally t.blocks)]
        exact hd.frame _
      · intro u hu
        rcases mem_cons.mp hu with rfl | hu
        · simp
        · exact mem_cons_of_mem _ (hsub u hu)
    | true =>
      obtain ⟨p1, hok1, hi1, hd1⟩ := landTransfer_ok (R := R) hi (le_self_add.trans hc) (hm t (by simp))
      have hc1 : pinsOf rest ≤ p1.refCnt := by simpa using hd1.trade.covers hc
      obtain ⟨still, p2, hok2, hi2, hd2, hsub⟩ := pollPending_ok landed rest (i + 1) hi1 hc1 hrest
      refine ⟨still, p2, ?_, hi2, ?_, fun u hu => mem_cons_of_mem _ (hsub u hu)⟩
      · simp only [pollPending, hl, if_true]
        exact (bind_of_ok hok1).trans hok2
      · rw [pinsOf_cons]
        simpa using hd1.seq hd2

/-- The copies, without their grouping by source replica. -/
def PendingCopies.all (copies : PendingCopies cfg) : List (H × ℕ × ℕ) :=
  copies.entries.flatMap snd

/-- The loop over the desired hashes, when `blocks` are in hand and `copies` are to be published. -/
structure Taking (p₀ : BlockPool H) (total : ℕ) (blocks : List ℕ) (copies : List (H × ℕ × ℕ))
    (p : BlockPool H) : Prop where
  inv : p.Inv total
  deal : Deals p₀ 0 p (tally blocks)
  unpublished : Unpublished blocks copies p
  missed : ∀ e ∈ copies, p.holds e.1 = false

section
variable {p₀ : BlockPool H} {blocks : List ℕ} {copies : List (H × ℕ × ℕ)} {h : H}

theorem Taking.hit (ht : Taking p₀ total blocks copies p) (hget : p.prefixCache.get? h = some b) :
    ∃ p', (touch b : BlockPool.Eff H R Unit) p = .ok () p' ∧ Taking p₀ total (blocks ++ [b]) copies p' := by
  have hb := (ht.inv.cache h b).mp hget
  obtain ⟨p', hok, hi', hd, -, hc⟩ := touch_published ht.inv (b := b) (by simp [hb])
  refine ⟨p', hok, hi', ?_, ⟨ht.unpublished.dst_nodup, fun e he => ?_, fun e he => ?_⟩, fun e he => ?_⟩
  · rw [tally_append]
    simpa using ht.deal.seq hd
  · exact hd.fresh (ht.unpublished.dst_fresh e he) rfl
  · exact mem_append_left _ (ht.unpublished.dst_mem e he)
  · rw [holds, hc]
    exact ht.missed e he

theorem Taking.copy (ht : Taking p₀ total blocks copies p) (hmiss : p.holds h = false)
    (hfree : p.numFreeBlocks ≠ 0) (src : ℕ) : ∃ b e p', (allocBlock : BlockPool.Eff H R _) p = .ok (b, e) p' ∧
      Taking p₀ total (blocks ++ [b]) ((h, b, src) :: copies) p' := by
  obtain ⟨b, e, p', hok, hi', hd, hzero, hfresh, -, hholds⟩ := allocBlock_ok ht.inv hfree
  have hstill : ∀ h, p.holds h = false → p'.holds h = false := by
    intro h hh
    by_contra hne
    rw [hholds h (by simpa using hne)] at hh
    cases hh
  refine ⟨b, e, p', hok, hi', ?_, ⟨?_, ?_, ?_⟩, ?_⟩
  · rw [tally_append]
    simpa using ht.deal.seq hd
  · rw [map_cons, nodup_cons]
    refine ⟨fun hmem => ?_, ht.unpublished.dst_nodup⟩
    obtain ⟨c, hc, hcb⟩ := mem_map.mp hmem
    have := (ht.unpublished.dst_fresh c hc).1
    rw [hcb, hzero] at this
    cases this
  · rw [forall_mem_cons]
    exact ⟨hfresh, fun c hc => hd.fresh (ht.unpublished.dst_fresh c hc) rfl⟩
  · rw [forall_mem_cons]
    exact ⟨by simp, fun c hc => mem_append_left _ (ht.unpublished.dst_mem c hc)⟩
  · rw [forall_mem_cons]
    exact ⟨hstill h hmiss, fun c hc => hstill _ (ht.missed c hc)⟩

end

theorem Taking.perm {copies copies' : List (H × ℕ × ℕ)}
    (ht : Taking p₀ total blocks copies p) (hp : copies'.Perm copies) : Taking p₀ total blocks copies' p :=
  ⟨ht.inv, ht.deal, ht.unpublished.perm hp, fun e he => ht.missed e (hp.mem_iff.mp he)⟩

/-- The whole loop. It copies a hash once for each time the chain has it. -/
theorem takeDeviceBlocks_ends (others : H → Option (cfg.Replica × ℕ))
    (desired : List H) : ∀ {blocks : List ℕ} {copies : PendingCopies cfg} {p : BlockPool H},
    Taking p₀ total blocks copies.all p →
    Ends ((takeDeviceBlocks cfg others desired (blocks, copies) : BlockPool.Eff H R _) p)
      (fun acc p' => Taking p₀ total acc.1 acc.2.all p' ∧
        ((copies.all.map fst ++ desired).Nodup → (acc.2.all.map fst).Nodup)) (fun _ _ => False) := by
  induction desired with
  | nil =>
    intro blocks copies p ht
    exact ⟨ht, by simp⟩
  | cons h desired ih =>
    intro blocks copies p ht
    have hstop : Taking p₀ total blocks copies.all p ∧
        ((copies.all.map fst ++ h :: desired).Nodup → (copies.all.map fst).Nodup) :=
      ⟨ht, fun hnd => (nodup_append.mp hnd).1⟩
    rw [takeDeviceBlocks, bind_get]
    cases hget : p.prefixCache.get? h with
    | some b =>
      obtain ⟨p', hok, ht'⟩ := ht.hit hget
      simp only
      rw [bind_of_ok hok]
      refine (ih ht').mono (fun acc q hq => ⟨hq.1, fun hnd => hq.2 ?_⟩) fun _ _ hf => hf
      exact hnd.sublist (Sublist.append_left (sublist_cons_self h desired) _)
    | none =>
      have hmiss : p.holds h = false := by simp [holds, hget]
      cases hcross : cfg.crossReplicaCopyEnabled with
      | false => exact hstop
      | true =>
        simp only [Bool.true_eq_false, if_false]
        cases others h with
        | none => exact hstop
        | some src =>
          obtain ⟨srcReplica, srcBlock⟩ := src
          by_cases hfree : p.numFreeBlocks = 0
          · simp only [if_pos hfree]
            exact hstop
          · obtain ⟨b, e, p', hok, ht'⟩ := ht.copy hmiss hfree srcBlock
            have hperm := pushTo_perm copies srcReplica (h, b, srcBlock)
            simp only [if_neg hfree]
            rw [bind_of_ok hok]
            refine (ih (ht'.perm hperm)).mono (fun acc q hq => ⟨hq.1, fun hnd => hq.2 ?_⟩) fun _ _ hf => hf
            refine (((hperm.map fst).append_right desired).nodup_iff).mpr ?_
            exact (perm_middle.nodup_iff).mp hnd

theorem commitIntoPrefixCache_ends {h : H} (hi : p.Inv total) (hb : p.Fresh b) :
    Ends ((commitIntoPrefixCache total h b : BlockPool.Eff H R Unit) p)
      (fun _ p' => p'.Inv total ∧ Deals p (tally [b]) p' (tally [b]) ∧
        p'.blockHash = update p.blockHash b (some h) ∧ p.holds h = false)
      (fun e _ => e = .poolAssertion ∧ p.holds h = true) := by
  have hpos : p.refCnt b ≠ 0 := by rw [hb.1]; decide
  cases hh : p.holds h with
  | false =>
    obtain ⟨p', hok, hi', hd, hhash⟩ := commitIntoPrefixCache_ok hi hpos hb.2 hh
    rw [hok]
    exact ⟨hi', hd, hhash, rfl⟩
  | true =>
    have hmem : h ∈ (p.setHash b (some h)).prefixCache.entries.map fst := by
      rw [holds, Option.isSome_iff_exists] at hh
      exact mem_keys_iff.mpr hh
    simp only [commitIntoPrefixCache, (hi.ref_real b hpos).ne, if_false, bind_get, hb.2, ne_eq,
      not_true_eq_false, bind_modify]
    rw [dif_pos hmem]
    exact ⟨rfl, trivial⟩

theorem holds_of_update {h h' : H} (hi : p.Inv total) (hi' : p'.Inv total)
    (hhash : p'.blockHash = update p.blockHash b (some h)) (hne : h' ≠ h)
    (hh : p'.holds h' = true) : p.holds h' = true := by
  obtain ⟨c, hc⟩ := hi'.holds_iff.mp hh
  rw [hhash] at hc
  rcases eq_or_ne c b with rfl | hcb
  · rw [update_self] at hc
    exact absurd (Option.some.inj hc).symm hne
  · rw [update_of_ne hcb] at hc
    exact hi.holds_iff.mpr ⟨c, hc⟩

/-- The copies that are left while they are published; `distinct` says that no hash comes twice. -/
structure Publishing (p₀ : BlockPool H) (total : ℕ) (blocks : List ℕ) (distinct : Prop)
    (rest : List (H × ℕ × ℕ)) (p : BlockPool H) : Prop where
  inv : p.Inv total
  deal : Deals p₀ 0 p (tally blocks)
  unpublished : Unpublished blocks rest p
  keys_nodup : distinct → (rest.map fst).Nodup
  missed : distinct → ∀ e ∈ rest, p.holds e.1 = false

theorem Publishing.step {distinct : Prop} {e : H × ℕ × ℕ}
    {rest : List (H × ℕ × ℕ)} (hp : Publishing p₀ total blocks distinct (e :: rest) p) :
    Ends ((commitIntoPrefixCache total e.1 e.2.1 : BlockPool.Eff H R Unit) p)
      (fun _ p' => Publishing p₀ total blocks distinct rest p') (fun e _ => e = .poolAssertion ∧ ¬ distinct) := by
  obtain ⟨hnd, hfresh, hmem⟩ := hp.unpublished
  rw [map_cons, nodup_cons] at hnd
  rw [forall_mem_cons] at hfresh hmem
  have hkeys : distinct → e.1 ∉ rest.map fst ∧ (rest.map fst).Nodup := fun hdist => nodup_cons.mp (hp.keys_nodup hdist)
  refine (commitIntoPrefixCache_ends hp.inv hfresh.1).mono ?_ ?_
  · rintro _ p' ⟨hi', hd, hhash, -⟩
    -- the block that is published stays in hand
    have hhand : Deals p (tally blocks) p' (tally blocks) := by
      have := hd.frame (tally (blocks.erase e.2.1))
      rwa [← tally_cons, ← tally_perm (perm_cons_erase hmem.1)] at this
    refine ⟨hi', hp.deal.trans hhand, ⟨hnd.2, fun c hc => ?_, hmem.2⟩, fun hdist => (hkeys hdist).2,
      fun hdist c hc => ?_⟩
    · refine hd.fresh (hfresh.2 c hc) (tally_eq_zero_iff.mpr ?_)
      rw [mem_singleton]
      exact fun heq => hnd.1 (mem_map.mpr ⟨c, hc, heq⟩)
    · have hmiss := hp.missed hdist c (mem_cons_of_mem _ hc)
      rw [Bool.eq_false_iff] at hmiss ⊢
      exact mt (holds_of_update hp.inv hi' hhash fun heq => (hkeys hdist).1 (mem_map.mpr ⟨c, hc, heq⟩)) hmiss
  · rintro _ _ ⟨he, hh⟩
    refine ⟨he, fun hdist => ?_⟩
    rw [hp.missed hdist e (by simp)] at hh
    cases hh

theorem getFullBlocksFromDevicePrefixCache_ends (others : H → Option (cfg.Replica × ℕ))
    (desired : List H) (hi : p.Inv cfg.totalNumBlocks) :
    Ends ((getFullBlocksFromDevicePrefixCache cfg others desired : BlockPool.Eff H R _) p)
      (fun blocks p' => p'.Inv cfg.totalNumBlocks ∧ Deals p 0 p' (tally blocks))
      (fun e _ => e = .poolAssertion ∧ ¬ desired.Nodup) := by
  rw [getFullBlocksFromDevicePrefixCache]
  split_ifs with honly
  · exact ⟨hi, by simpa using refl p 0⟩
  · have hstart : Taking p cfg.totalNumBlocks [] [] p :=
      ⟨hi, by simpa using refl p 0, ⟨by simp, by simp, by simp⟩, by simp⟩
    refine Ends.bind ((takeDeviceBlocks_ends others desired hstart).raises fun _ _ h => h.elim) ?_
    rintro ⟨blocks, copies⟩ p1 ⟨ht, hnd⟩
    refine Ends.bind (Ends.forM (I := Publishing p cfg.totalNumBlocks blocks desired.Nodup)
      (fun _ _ _ h => h.step) _ p1 ⟨ht.inv, ht.deal, ht.unpublished, hnd, fun _ => ht.missed⟩) ?_
    exact fun _ p2 h => ⟨h.inv, h.deal⟩

theorem allocBlocks_ok (n : ℕ) : ∀ {p : BlockPool H}, p.Inv total → n ≤ p.numFreeBlocks →
    ∃ blocks p', (allocBlocks n : BlockPool.Eff H R _) p = .ok blocks p' ∧ p'.Inv total ∧
      Deals p 0 p' (tally blocks) ∧ blocks.length = n ∧ blocks.Nodup ∧ ∀ b ∈ blocks, p'.Fresh b := by
  induction n with
  | zero => exact fun {p} hi _ => ⟨[], p, rfl, hi, by simpa using refl p 0, rfl, by simp, by simp⟩
  | succ n ih =>
    intro p hi hn
    obtain ⟨b, e, p1, hok1, hi1, hd1, -, hfresh, hfree, -⟩ := allocBlock_ok hi (by omega)
    obtain ⟨blocks, p2, hok2, hi2, hd2, hlen, hnd, hall⟩ := ih hi1 (by omega)
    have hb : p2.Fresh b := hd2.fresh hfresh rfl
    refine ⟨b :: blocks, p2, ?_, hi2, ?_, by simp [hlen], ?_, ?_⟩
    · rw [allocBlocks, bind_of_ok hok1]
      simp only
      rw [bind_of_ok hok2]
      rfl
    · rw [tally_cons]
      simpa using hd1.seq hd2
    · rw [nodup_cons]
      refine ⟨?_, hnd⟩
      have htrade := hd2.trade b
      rw [hb.1, hfresh.1, Pi.zero_apply] at htrade
      exact tally_eq_zero_iff.mp (by omega)
    · rw [forall_mem_cons]
      exact ⟨hb, hall⟩

/-- A load that was accepted: its blocks are in hand and nobody else's. -/
structure Loaded (p : BlockPool H) (desired : List H) (blocks : List ℕ) (p' : BlockPool H) : Prop where
  deal : Deals p 0 p' (tally blocks)
  length_le : blocks.length ≤ desired.length
  nodup : blocks.Nodup
  fresh : ∀ b ∈ blocks, p'.Fresh b

theorem takeHostBlocks_ends (env : PagedEnv cfg) (desired : List H) (hi : p.Inv cfg.totalNumBlocks) :
    Ends ((takeHostBlocks cfg env desired : BlockPool.Eff H R _) p)
      (fun blocks p' => p'.Inv cfg.totalNumBlocks ∧ Loaded p desired blocks p' ∧ (blocks ≠ [] → env.load ≠ .refused))
      (fun _ _ => False) := by
  have hmiss : ∀ q, Deals p 0 q 0 → Loaded p desired [] q := fun q hq =>
    ⟨by simpa using hq, by simp, by simp, by simp⟩
  rw [takeHostBlocks]
  by_cases hempty : desired = []
  · rw [if_pos hempty]
    exact ⟨hi, hmiss p (.refl _ _), by simp⟩
  · have hmasks : ∀ leaf ∈ (env.lookup desired).map fun mask => (KVCacheGroupId.full, mask),
        leaf.2.length = desired.length := by
      simpa using env.lookup_length desired
    obtain ⟨n, hn, hle, -⟩ := longestJointPrefixHit_spec cfg.blockSize_pos hmasks
    obtain ⟨blocks, p1, hok1, hi1, hd1, hlen, hnd, hfresh⟩ :=
      allocBlocks_ok (min n p.numFreeBlocks) hi (Nat.min_le_right _ _)
    simp only [if_neg hempty, hn]
    rw [bind_get, bind_of_ok hok1]
    by_cases href : env.load = .refused
    · rw [if_pos href]
      have hc : tally blocks ≤ p1.refCnt := hd1.trade.covered (by simp)
      obtain ⟨p2, hok2, hi2, hd2⟩ := forM_freeBlock_ok blocks hi1 hc
      rw [bind_of_ok hok2]
      exact ⟨hi2, hmiss p2 (hd1.trans hd2), by simp⟩
    · rw [if_neg href]
      refine ⟨hi1, ⟨hd1, ?_, hnd, hfresh⟩, fun _ => href⟩
      rw [hlen]
      exact (Nat.min_le_left _ _).trans hle

/-- It fails on a hash that is published, unless such hashes are skipped; what it published before stays. -/
theorem commitLoaded_ends (only : Bool) : ∀ (loaded : List (ℕ × H)) {p : BlockPool H},
    p.Inv total → (loaded.map fst).Nodup → (∀ e ∈ loaded, p.Fresh e.1) →
    Ends ((commitLoaded total only loaded : BlockPool.Eff H R Unit) p)
      (fun _ p' => (p'.Inv total ∧ Deals p (tally (loaded.map fst)) p' (tally (loaded.map fst))) ∧
        (only = false → ∀ e ∈ loaded, p.holds e.2 = false))
      (fun e p' => (p'.Inv total ∧ Deals p (tally (loaded.map fst)) p'
          (tally (loaded.map fst))) ∧ e = .assertion "" ∧ only = false ∧
        ((loaded.map snd).Nodup → ∃ e ∈ loaded, p.holds e.2 = true))
  | [], p, hi, _, _ => ⟨⟨hi, .refl _ _⟩, by simp⟩
  | (b, h) :: rest, p, hi, hnd, hfresh => by
    rw [map_cons, nodup_cons] at hnd
    rw [forall_mem_cons] at hfresh
    rw [commitLoaded, bind_get]
    cases hh : p.holds h with
    | true =>
      cases only with
      | false => exact ⟨⟨hi, .refl _ _⟩, rfl, rfl, fun _ => ⟨(b, h), by simp, hh⟩⟩
      | true =>
        refine (commitLoaded_ends true rest hi hnd.2 hfresh.2).mono ?_ ?_
        · rintro _ p' ⟨⟨hi', hd⟩, -⟩
          refine ⟨⟨hi', ?_⟩, by simp⟩
          rw [map_cons, tally_cons, add_comm]
          exact hd.frame _
        · rintro _ _ ⟨-, -, hf, -⟩
          cases hf
    | false =>
      have hpos : p.refCnt b ≠ 0 := by rw [hfresh.1.1]; decide
      obtain ⟨p1, hok1, hi1, hd1, hhash⟩ := commitIntoPrefixCache_ok (R := R) hi hpos hfresh.1.2 hh
      have hfresh1 : ∀ e ∈ rest, p1.Fresh e.1 := fun e he => by
        refine hd1.fresh (hfresh.2 e he) (tally_eq_zero_iff.mpr ?_)
        rw [mem_singleton]
        exact fun heq => hnd.1 (mem_map.mpr ⟨e, he, heq⟩)
      have hless : ∀ h', p1.holds h' = false → p.holds h' = false := fun h' => by
        rw [Bool.eq_false_iff, Bool.eq_false_iff]
        refine mt fun hh' => ?_
        obtain ⟨c, hc⟩ := hi.holds_iff.mp hh'
        have hcb : c ≠ b := by
          rintro rfl
          rw [hfresh.1.2] at hc
          cases hc
        exact hi1.holds_iff.mpr ⟨c, by rw [hhash, update_of_ne hcb, hc]⟩
      have hcons : ∀ {q}, Deals p1 (tally (rest.map fst)) q (tally (rest.map fst)) →
          Deals p (tally (((b, h) :: rest).map fst)) q (tally (((b, h) :: rest).map fst)) :=
        fun hd => by
          rw [map_cons, tally_cons]
          exact hd1.seq hd
      refine (congrArg (Ends · _ _) (bind_of_ok hok1)).mpr ((commitLoaded_ends only rest hi1 hnd.2 hfresh1).mono ?_ ?_)
      · rintro _ p' ⟨⟨hi', hd⟩, hfree⟩
        exact ⟨⟨hi', hcons hd⟩, fun honly => forall_mem_cons.mpr ⟨hh, fun e he => hless _ (hfree honly e he)⟩⟩
      · rintro err p' ⟨⟨hi', hd⟩, herr, honly, hclash⟩
        refine ⟨⟨hi', hcons hd⟩, herr, honly, fun hkeys => ?_⟩
        rw [map_cons, nodup_cons] at hkeys
        obtain ⟨e, he, hheld⟩ := hclash hkeys.2
        exact ⟨e, mem_cons_of_mem _ he, holds_of_update hi hi1 hhash
          (fun heq => hkeys.1 (mem_map.mpr ⟨e, he, heq⟩)) hheld⟩

end MojoProse.KvCache.BlockManager
