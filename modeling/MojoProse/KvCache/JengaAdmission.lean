import Mathlib.Algebra.Order.BigOperators.Group.Finset
import MojoProse.KvCache.JengaPoolRun
import MojoProse.Support.Math

/-! `can_satisfy_demand` against the allocations it admits.

    A cache's free little blocks in huge blocks that are not parked are fixed: no other cache can take
    them. The test charges a cache the huge blocks it needs beyond those. `alloc_block` may take a huge
    block earlier than that: a committed block at the front of the free list makes it claim a pristine
    one, and a front block of a parked huge block un-parks it. -/

namespace MojoProse.KvCache
open Schemes Support Geometry List Function Bool

variable {C H : Type}

def pristinePoolCanSatisfy (allocatableHugeBlocks : ℤ) (cacheRatios : C → ℕ) (demand : List (C × ℤ)) : Bool :=
  let claimable := demand.foldl (fun claimable e =>
    if e.2 > 0 then claimable - ceildiv e.2 (cacheRatios e.1) else claimable) allocatableHugeBlocks
  claimable ≥ 0

namespace JengaBlockPool
section
variable (g : Geometry C) (s : JengaBlockPool C H)

/-- `fixed_free_blocks`: what is carved for the cache outside its parked huge blocks. -/
def fixedFreeBlocks (c : C) : ℤ :=
  (s.freeLittleBlocks c).length - s.parkedAndTyped c * g.cacheRatios c

/-- The huge blocks beyond the fixed blocks that `n` blocks of `c` take. -/
def hugeNeed (c : C) (n : ℕ) : ℤ :=
  ceildiv (max 0 (n - s.fixedFreeBlocks g c)) (g.cacheRatios c)

def canSatisfyDemand (demand : Dict C ℕ) (atCapacity : Bool) : Bool :=
  if atCapacity then
    pristinePoolCanSatisfy (g.numHugeBlocks - 1 : ℕ) g.cacheRatios
      (demand.entries.map fun e => (e.1, (e.2 : ℤ)))
  else
    let claimable := demand.entries.foldl (fun claimable e =>
      claimable - min (s.parkedAndTyped e.1) (s.hugeNeed g e.1 e.2)) (s.freeHugeBlocks.length : ℤ)
    pristinePoolCanSatisfy claimable g.cacheRatios
      (demand.entries.map fun e => (e.1, e.2 - ((s.freeLittleBlocks e.1).length : ℤ)))

variable [DecidableEq C] [DecidableEq H]

def allocBlocks (c : C) : ℕ → JengaBlockPool C H → Except (PoolError C) (JengaBlockPool C H)
  | 0, s => .ok s
  | n + 1, s => do
    let (_, s) ← s.allocBlock g c
    allocBlocks c n s

/-- Calls of `alloc_block` for these caches in order, with the blocks they return. -/
def allocOrder : List C → JengaBlockPool C H → Except (PoolError C) (List ℕ × JengaBlockPool C H)
  | [], s => .ok ([], s)
  | c :: cs, s => do
    let (bid, s) ← s.allocBlock g c
    let (bids, s) ← allocOrder cs s
    return (bid :: bids, s)

def allocDemand : List (C × ℕ) → JengaBlockPool C H → Except (PoolError C) (JengaBlockPool C H)
  | [], s => .ok s
  | (c, n) :: rest, s => do
    let s ← allocBlocks g c n s
    allocDemand rest s

/-- The next `alloc_block` for `c` takes a huge block out of the free ones. -/
def takesHuge (c : C) : Bool :=
  match s.freeLittleBlocks c with
  | [] => true
  | bid :: _ => s.preferClaimHuge c || decide (g.hugeOf c bid ∈ s.freeHugeBlocks)

/-- It does so although the `left` blocks still to be drawn fit in the fixed ones. -/
def wastesHuge (c : C) (left : ℕ) : Bool :=
  s.takesHuge g c && decide ((left : ℤ) ≤ s.fixedFreeBlocks g c)

/-- How often that happens while `n` blocks of `c` are drawn. -/
def wasted (c : C) : ℕ → JengaBlockPool C H → ℕ
  | 0, _ => 0
  | n + 1, s => (s.wastesHuge g c (n + 1)).toNat +
    match s.allocBlock g c with
    | .ok (_, s') => wasted c n s'
    | .error _ => 0

/-- How often it happens while the caches of `demand` are served. -/
def wastedAll : List (C × ℕ) → JengaBlockPool C H → ℕ
  | [], _ => 0
  | (c, n) :: rest, s => wasted g c n s +
    match allocBlocks g c n s with
    | .ok s' => wastedAll rest s'
    | .error _ => 0

end

variable {g : Geometry C} {s s' : JengaBlockPool C H} {c : C} {n : ℕ}

/-! ### What the test computes -/

theorem ratio_pos_int (g : Geometry C) (c : C) : (0 : ℤ) < g.cacheRatios c := by
  exact_mod_cast g.ratio_pos c

theorem hugeNeed_nonneg : 0 ≤ s.hugeNeed g c n := ceildiv_nonneg (ratio_pos_int g c) (le_max_left _ _)

theorem hugeNeed_le_iff {k : ℤ} (hk : 0 ≤ k) :
    s.hugeNeed g c n ≤ k ↔ n ≤ s.fixedFreeBlocks g c + k * g.cacheRatios c := by
  have hr := ratio_pos_int g c
  have hmul : 0 ≤ k * (g.cacheRatios c : ℤ) := mul_nonneg hk hr.le
  rw [hugeNeed, ceildiv_le_iff hr, max_le_iff]
  constructor
  · rintro ⟨-, h⟩
    linarith
  · intro h
    exact ⟨hmul, by linarith⟩

theorem hugeNeed_eq_zero_iff : s.hugeNeed g c n = 0 ↔ n ≤ s.fixedFreeBlocks g c := by
  rw [le_antisymm_iff, hugeNeed_le_iff le_rfl]
  simp [hugeNeed_nonneg]

theorem hugeNeed_gain {m : ℕ} (hfix : s'.fixedFreeBlocks g c - n =
      s.fixedFreeBlocks g c - m + g.cacheRatios c) (hneed : s.hugeNeed g c m ≠ 0) :
    s'.hugeNeed g c n = s.hugeNeed g c m - 1 := by
  have hpos : 1 ≤ s.hugeNeed g c m := by
    have := hugeNeed_nonneg (s := s) (g := g) (c := c) (n := m)
    omega
  apply le_antisymm
  · rw [hugeNeed_le_iff (by omega), sub_mul]
    have := (hugeNeed_le_iff (s := s) (g := g) (c := c) (n := m) (by omega)).mp le_rfl
    linarith
  · have hnonneg := hugeNeed_nonneg (s := s') (g := g) (c := c) (n := n)
    rw [sub_le_iff_le_add, hugeNeed_le_iff (by omega), add_mul]
    have := (hugeNeed_le_iff hnonneg).mp le_rfl
    linarith

/-- What the two loops of the test charge one cache together is its need. -/
theorem charge_eq_hugeNeed (hp : 0 ≤ s.parkedAndTyped c) : min (s.parkedAndTyped c) (s.hugeNeed g c n) +
      (if n - ((s.freeLittleBlocks c).length : ℤ) > 0 then
        ceildiv (n - (s.freeLittleBlocks c).length) (g.cacheRatios c) else 0) = s.hugeNeed g c n := by
  have hr := ratio_pos_int g c
  have hcarved : ((s.freeLittleBlocks c).length : ℤ) =
      s.fixedFreeBlocks g c + s.parkedAndTyped c * g.cacheRatios c := by
    rw [fixedFreeBlocks]
    ring
  have hle := hugeNeed_le_iff (s := s) (g := g) (c := c) (n := n) hp
  split_ifs with h
  · have hneed : s.parkedAndTyped c < s.hugeNeed g c n := by
      rw [← not_le, hle]
      linarith
    have hpos : 0 ≤ n - s.fixedFreeBlocks g c := by
      have := mul_nonneg hp hr.le
      linarith
    rw [min_eq_left hneed.le, hcarved, hugeNeed, max_eq_right hpos,
      show (n : ℤ) - (s.fixedFreeBlocks g c + s.parkedAndTyped c * g.cacheRatios c) =
        n - s.fixedFreeBlocks g c - s.parkedAndTyped c * g.cacheRatios c by ring,
      ceildiv_sub_mul hr]
    ring
  · rw [min_eq_right (hle.mpr (by linarith)), add_zero]

theorem pristinePoolCanSatisfy_iff {k : ℤ} {ratios : C → ℕ} {demand : List (C × ℤ)} :
    pristinePoolCanSatisfy k ratios demand = true ↔
      (demand.map fun e => if e.2 > 0 then ceildiv e.2 (ratios e.1) else 0).sum ≤ k := by
  have hstep : (fun (claimable : ℤ) (e : C × ℤ) =>
      if e.2 > 0 then claimable - ceildiv e.2 (ratios e.1) else claimable) =
      fun claimable e => claimable - if e.2 > 0 then ceildiv e.2 (ratios e.1) else 0 := by
    funext claimable e
    split_ifs <;> simp
  simp only [pristinePoolCanSatisfy, hstep, foldl_sub, ge_iff_le, decide_eq_true_eq]
  constructor
  · intro h
    linarith
  · intro h
    linarith

theorem numFreeBlocks_eq : s.numFreeBlocks g c = s.fixedFreeBlocks g c + s.freeHugeBlocks.length * g.cacheRatios c := by
  rw [numFreeBlocks, fixedFreeBlocks]
  ring

variable [DecidableEq C] [DecidableEq H]

theorem canSatisfyDemand_iff (hi : Inv g s) (demand : Dict C ℕ) : s.canSatisfyDemand g demand false = true ↔
      (demand.entries.map fun e => s.hugeNeed g e.1 e.2).sum ≤ s.freeHugeBlocks.length := by
  have hp : ∀ c, 0 ≤ s.parkedAndTyped c := by
    intro c
    rw [hi.parked]
    omega
  have hspl : (demand.entries.map fun e => s.hugeNeed g e.1 e.2).sum =
      (demand.entries.map fun e => min (s.parkedAndTyped e.1) (s.hugeNeed g e.1 e.2)).sum +
      (demand.entries.map fun e => if e.2 - ((s.freeLittleBlocks e.1).length : ℤ) > 0 then
        ceildiv (e.2 - (s.freeLittleBlocks e.1).length) (g.cacheRatios e.1) else 0).sum := by
    rw [← sum_map_add]
    exact congrArg sum (map_congr_left fun e _ => (charge_eq_hugeNeed (hp e.1)).symm)
  simp only [canSatisfyDemand, false_eq_true, if_false, pristinePoolCanSatisfy_iff, foldl_sub, map_map, comp_def]
  constructor
  · intro h
    linarith
  · intro h
    linarith

/-! ### What one allocation takes -/

/-- The parked huge blocks of a cache hold only free blocks of it. -/
theorem fixedFreeBlocks_nonneg (hi : Inv g s) (c : C) : 0 ≤ s.fixedFreeBlocks g c := by
  set parked := s.freeHugeBlocks.filter fun huge => s.littleBlockType huge = some c with hparked
  have hnd : (parked.flatMap (g.littles c)).Nodup := by
    refine nodup_flatMap.mpr ⟨fun _ _ => nodup_littles _ _, ?_⟩
    refine (hi.huge_nodup.filter _).imp fun {a b} hab => ?_
    intro x hxa hxb
    exact hab ((mem_littles.mp hxa).symm.trans (mem_littles.mp hxb))
  have hsub : parked.flatMap (g.littles c) ⊆ s.freeLittleBlocks c := by
    intro b hb
    obtain ⟨huge, hmem, hb⟩ := mem_flatMap.mp hb
    obtain ⟨hfree, htype⟩ := mem_filter.mp hmem
    exact hi.littles_subset hfree (by simpa using htype) hb
  have hlen := (subperm_of_subset hnd hsub).length_le
  simp only [length_flatMap, littles, length_range', map_const',
    sum_replicate, smul_eq_mul, hparked, ← countP_eq_length_filter] at hlen
  rw [fixedFreeBlocks, hi.parked]
  linarith

/-- A claim gives its cache the little blocks as fixed ones, and takes none from another cache. -/
theorem Claimed.account (hi : Inv g s) {huge : ℕ} (hmem : huge ∈ s.freeHugeBlocks)
    (hne : s.littleBlockType huge ≠ some c) (hc : Claimed g s huge c s') (c' : C) :
    s'.fixedFreeBlocks g c' = s.fixedFreeBlocks g c' + if c' = c then (g.cacheRatios c : ℤ) else 0 := by
  simp only [fixedFreeBlocks, hc.parked]
  by_cases hcc : c' = c
  · subst hcc
    rw [hc.little_self]
    simp only [hne, if_false, if_true, length_append, littles, length_range']
    push_cast
    ring
  · rw [hc.little_other c' hcc, if_neg hcc]
    split_ifs with htype
    · have hperm := subperm_append_diff_self_of_count_le
        (subperm_ext_iff.mp (subperm_of_subset (nodup_littles c' huge) (hi.littles_subset hmem htype)))
      have hlen := hperm.length_eq
      simp only [length_append, littles, length_range'] at hlen
      have : ((s.freeLittleBlocks c').length : ℤ) = g.cacheRatios c' +
          ((s.freeLittleBlocks c').diff (range' (huge * g.cacheRatios c') (g.cacheRatios c'))).length := by
        exact_mod_cast hlen.symm
      rw [littles, this]
      ring
    · ring

/-- Taking a free block un-parks its huge block, if that is parked, and uses up one block. -/
theorem Acquired.account {bid : ℕ} (hfree : bid ∈ s.freeLittleBlocks c) (ha : Acquired g s c bid s') :
    (s'.freeHugeBlocks.length : ℤ) = s.freeHugeBlocks.length - (if g.hugeOf c bid ∈ s.freeHugeBlocks then 1 else 0) ∧
      ∀ c', s'.fixedFreeBlocks g c' = s.fixedFreeBlocks g c' - if c' = c then
        1 - (if g.hugeOf c bid ∈ s.freeHugeBlocks then (g.cacheRatios c : ℤ) else 0) else 0 := by
  constructor
  · rw [ha.free]
    split_ifs with hmem
    · rw [length_erase_of_mem hmem]
      have := length_pos_of_mem hmem
      omega
    · rw [erase_of_not_mem hmem, sub_zero]
  · intro c'
    simp only [fixedFreeBlocks, ha.little, ha.parked]
    by_cases hcc : c' = c
    · subst hcc
      have hpos := length_pos_of_mem hfree
      rw [update_self, length_erase_of_mem hfree, if_pos rfl, Nat.cast_sub hpos]
      split_ifs
      · rw [update_self]
        ring
      · ring
    · rw [update_of_ne hcc, if_neg hcc]
      split_ifs
      · rw [update_of_ne hcc]
        ring
      · ring

/-- One allocation takes at most one huge block, gains its little blocks, and uses up one. Other caches keep theirs. -/
theorem allocBlock_account {bid : ℕ} (hi : Inv g s) (hok : s.allocBlock g c = .ok (bid, s')) :
    (s'.freeHugeBlocks.length : ℤ) = s.freeHugeBlocks.length - (if s.takesHuge g c then 1 else 0) ∧
      ∀ c', s'.fixedFreeBlocks g c' = s.fixedFreeBlocks g c' - if c' = c then
        1 - (if s.takesHuge g c then (g.cacheRatios c : ℤ) else 0) else 0 := by
  rcases allocBlock_cases hi c with ⟨herr, -⟩ | ⟨s1, e, b, rest, t, hok', hr, hlittle, he, ha, -⟩
  · rw [herr] at hok
    cases hok
  rw [hok'] at hok
  cases hok
  obtain ⟨hlen, hfix⟩ := ha.account (by simp [hlittle])
  cases hr with
  | own hne hkeep =>
    have htakes : s.takesHuge g c = decide (g.hugeOf c bid ∈ s.freeHugeBlocks) := by
      simp [takesHuge, hlittle, hkeep]
    simp only [htakes, decide_eq_true_eq]
    exact ⟨hlen, hfix⟩
  | @claim _ huge hrest hfree hne hwhy hc =>
    have hbid : g.hugeOf c bid = huge := by simpa [eq_comm] using he
    have hmem : huge ∈ s.freeHugeBlocks := by simp [hfree]
    have htakes : s.takesHuge g c = true := by
      unfold takesHuge
      split
      · rfl
      · rename_i heq
        simp [hwhy.resolve_left (by simp [heq])]
    have hout : g.hugeOf c bid ∉ s1.freeHugeBlocks := by
      rw [hbid, hc.free]
      exact hi.huge_nodup.not_mem_erase
    simp only [hout, if_false, sub_zero] at hlen hfix
    simp only [htakes, if_true]
    constructor
    · rw [hlen, hc.free, length_erase_of_mem hmem, Nat.cast_sub (length_pos_of_mem hmem)]
      simp
    · intro c'
      rw [hfix, hc.account hi hmem hne]
      split_ifs <;> ring

/-! ### The blocks of one cache -/

/-- As many calls as there are free blocks succeed, with different blocks, and use all of them up. -/
theorem exists_allocOrder (c : C) : ∀ (n : ℕ) (s : JengaBlockPool C H), Inv g s → s.numFreeBlocks g c = n →
    ∃ bids s', allocOrder g (replicate n c) s = .ok (bids, s') ∧ Inv g s' ∧ s'.numFreeBlocks g c = 0 ∧
      bids.length = n ∧ bids.Nodup ∧ ∀ bid ∈ bids, s.refCnt c bid = 0
  | 0, s, hi, hn => ⟨[], s, rfl, hi, hn, rfl, nodup_nil, by simp⟩
  | n + 1, s, hi, hn => by
    rcases allocBlock_cases hi c with ⟨-, hl, hf⟩ | ⟨_, _, bid, _, s1, hone, -⟩
    · rw [numFreeBlocks, hi.parked, hl, hf] at hn
      simp at hn
      omega
    obtain ⟨hi1, -, hzero, href, -⟩ := allocBlock_spec hi hone
    obtain ⟨hlen, hfix⟩ := allocBlock_account hi hone
    have hn1 : s1.numFreeBlocks g c = n := by
      rw [numFreeBlocks_eq] at hn ⊢
      rw [hlen, hfix, if_pos rfl]
      push_cast at hn
      split_ifs <;> linarith
    obtain ⟨bids, s', hrest, hi', hn', hlen', hnd, hall⟩ := exists_allocOrder c n s1 hi1 hn1
    -- the block drawn first is referenced from then on
    have hfresh : bid ∉ bids := by
      intro hmem
      simpa [href] using hall bid hmem
    refine ⟨bid :: bids, s', ?_, hi', hn', by simp [hlen'], nodup_cons.mpr ⟨hfresh, hnd⟩, ?_⟩
    · simp [replicate_succ, allocOrder, hone, hrest]
    · refine forall_mem_cons.mpr ⟨hzero, fun b hb => ?_⟩
      have hne : b ≠ bid := fun h => hfresh (h ▸ hb)
      simpa [href, hne] using hall b hb

/-- Exactly `num_free_blocks` calls of `alloc_block` succeed, each with another unreferenced block; the next one
    raises and changes nothing. -/
theorem numFreeBlocks_exact (g : Geometry C) (s : JengaBlockPool C H) (hs : Reached g s) (c : C) :
    ∃ (n : ℕ) (bids : List ℕ) (s' : JengaBlockPool C H), s.numFreeBlocks g c = n ∧
      allocOrder g (replicate n c) s = .ok (bids, s') ∧ bids.length = n ∧ bids.Nodup ∧ (∀ bid ∈ bids, s.refCnt c bid = 0) ∧
      s'.allocBlock g c = .error (.insufficientBlocks c) ∧ step g s' (.alloc c) = s' := by
  have hnonneg : ∀ {t : JengaBlockPool C H}, Inv g t → 0 ≤ t.numFreeBlocks g c := by
    intro t ht
    rw [numFreeBlocks_eq]
    have := fixedFreeBlocks_nonneg ht c
    positivity
  obtain ⟨n, hn⟩ := Int.eq_ofNat_of_zero_le (hnonneg hs.inv)
  obtain ⟨bids, s', hrun, hi', hzero, hlen, hnd, hall⟩ := exists_allocOrder c n s hs.inv hn
  have herr : s'.allocBlock g c = .error (.insufficientBlocks c) := by
    rcases allocBlock_cases hi' c with ⟨herr, -⟩ | ⟨_, _, bid, _, s₁, hone, -⟩
    · exact herr
    obtain ⟨hlen, hfix⟩ := allocBlock_account hi' hone
    have := hnonneg (allocBlock_spec hi' hone).1
    rw [numFreeBlocks_eq] at this hzero
    rw [hlen, hfix, if_pos rfl] at this
    split_ifs at this <;> linarith
  exact ⟨n, bids, s', hn, hrun, hlen, hnd, hall, herr, by simp [step, call, herr]⟩

/-! ### Drawing a demand -/

theorem hugeNeed_zero (hi : Inv g s) (c : C) : s.hugeNeed g c 0 = 0 := by
  rw [hugeNeed_eq_zero_iff]
  exact_mod_cast fixedFreeBlocks_nonneg hi c

/-- A step wastes a huge block, with no need before or after it, or leaves free huge blocks minus need as it was. -/
theorem hugeNeed_step {bid : ℕ} (hi : Inv g s) (hok : s.allocBlock g c = .ok (bid, s')) (n : ℕ) :
    (s.wastesHuge g c (n + 1) = true ∧ s.hugeNeed g c (n + 1) = 0 ∧ s'.hugeNeed g c n = 0 ∧
      (s'.freeHugeBlocks.length : ℤ) = s.freeHugeBlocks.length - 1) ∨
    (s.wastesHuge g c (n + 1) = false ∧ (s'.freeHugeBlocks.length : ℤ) - s'.hugeNeed g c n =
      s.freeHugeBlocks.length - s.hugeNeed g c (n + 1)) := by
  obtain ⟨hlen, hfix⟩ := allocBlock_account hi hok
  have hfix := hfix c
  rw [if_pos rfl] at hfix
  cases htakes : s.takesHuge g c with
  | false =>
    rw [htakes] at hlen hfix
    refine .inr ⟨by simp [wastesHuge, htakes], ?_⟩
    rw [hlen, hugeNeed, hugeNeed, hfix]
    push_cast
    ring_nf
  | true =>
    rw [htakes] at hlen hfix
    simp only [if_true] at hlen hfix
    by_cases hneed : s.hugeNeed g c (n + 1) = 0
    · have hfit := hugeNeed_eq_zero_iff.mp hneed
      refine .inl ⟨?_, hneed, ?_, hlen⟩
      · simp only [wastesHuge, htakes, decide_eq_true hfit, Bool.and_self]
      · rw [hugeNeed_eq_zero_iff]
        push_cast at hfit
        linarith
    · refine .inr ⟨?_, ?_⟩
      · have hfit : ¬ ((n + 1 : ℕ) : ℤ) ≤ s.fixedFreeBlocks g c := fun h => hneed (hugeNeed_eq_zero_iff.mpr h)
        simp only [wastesHuge, decide_eq_false hfit, Bool.and_false]
      · rw [hlen, hugeNeed_gain (by push_cast; linarith) hneed]
        ring

/-- When `alloc_block` raises, one more block needs a huge block and there is none. -/
theorem hugeNeed_of_error (hi : Inv g s) {err : PoolError C} (herr : s.allocBlock g c = .error err)
    (n : ℕ) : err = .insufficientBlocks c ∧ ¬ s.hugeNeed g c (n + 1) ≤ s.freeHugeBlocks.length := by
  rcases allocBlock_cases hi c with ⟨h, hl, hf⟩ | ⟨_, _, _, _, _, h, -⟩
  · rw [herr] at h
    refine ⟨Except.error.inj h, ?_⟩
    have hp := hi.parked c
    rw [hf] at hp ⊢
    rw [hugeNeed_le_iff (by simp), fixedFreeBlocks, hl, hp]
    simp
  · rw [herr] at h
    cases h

theorem allocBlocks_ok (c : C) : ∀ (n : ℕ) (s : JengaBlockPool C H), Inv g s → ∀ s', allocBlocks g c n s = .ok s' →
      Inv g s' ∧ (s'.freeHugeBlocks.length : ℤ) = s.freeHugeBlocks.length - s.hugeNeed g c n - wasted g c n s ∧
      ∀ c', c' ≠ c → s'.fixedFreeBlocks g c' = s.fixedFreeBlocks g c'
  | 0, s, hi, s', hok => by
    cases hok
    refine ⟨hi, ?_, fun _ _ => rfl⟩
    rw [hugeNeed_zero hi]
    simp [wasted]
  | n + 1, s, hi, s', hok => by
    obtain ⟨⟨bid, s1⟩, hone, hrest⟩ := bind_eq_ok.mp hok
    have hi1 := (allocBlock_spec hi hone).1
    obtain ⟨hi', hlen, hfix⟩ := allocBlocks_ok c n s1 hi1 s' hrest
    have hstep := hugeNeed_step hi hone n
    refine ⟨hi', ?_, ?_⟩
    · rw [hlen, wasted, hone]
      rcases hstep with ⟨hw, h0, h0', hl⟩ | ⟨hw, hd⟩
      · simp only [hw, h0, h0', hl, toNat_true]
        push_cast
        ring
      · simp only [hw, toNat_false, zero_add]
        linarith
    · intro c' hc
      rw [hfix c' hc, (allocBlock_account hi hone).2 c', if_neg hc, sub_zero]

/-- `n` blocks of one cache can be drawn exactly when their need fits in the free huge blocks. -/
theorem allocBlocks_raises_iff (c : C) : ∀ (n : ℕ) (s : JengaBlockPool C H), Inv g s →
      (allocBlocks g c n s = .error (.insufficientBlocks c) ∧ ¬ s.hugeNeed g c n ≤ s.freeHugeBlocks.length) ∨
      ((∃ s', allocBlocks g c n s = .ok s') ∧ s.hugeNeed g c n ≤ s.freeHugeBlocks.length)
  | 0, s, hi => .inr ⟨⟨s, rfl⟩, by rw [hugeNeed_zero hi]; omega⟩
  | n + 1, s, hi => by
    simp only [allocBlocks]
    cases hone : s.allocBlock g c with
    | error err =>
      obtain ⟨rfl, hneed⟩ := hugeNeed_of_error hi hone n
      exact .inl ⟨rfl, hneed⟩
    | ok r =>
      obtain ⟨bid, s1⟩ := r
      have hstep := hugeNeed_step hi hone n
      rcases allocBlocks_raises_iff c n s1 (allocBlock_spec hi hone).1 with ⟨h1, h2⟩ | ⟨h1, h2⟩
      · refine .inl ⟨h1, fun h => h2 ?_⟩
        rcases hstep with ⟨-, -, h0, -⟩ | ⟨-, hd⟩ <;> omega
      · refine .inr ⟨h1, ?_⟩
        rcases hstep with ⟨-, h0, -⟩ | ⟨-, hd⟩ <;> omega

/-- Drawing a demand raises exactly when some cache's need, with the needs and the waste of the caches before it,
    exceeds the free huge blocks. -/
theorem allocDemand_iff : ∀ (demand : List (C × ℕ)) (s : JengaBlockPool C H), Inv g s → (demand.map Prod.fst).Nodup →
      ((∀ c, allocDemand g demand s ≠ .error (.insufficientBlocks c)) ↔
        ∀ served c n rest, demand = served ++ (c, n) :: rest →
          ((served ++ [(c, n)]).map fun e => s.hugeNeed g e.1 e.2).sum + wastedAll g served s ≤ s.freeHugeBlocks.length)
  | [], s, _, _ => by simp [allocDemand]
  | (c, n) :: demand, s, hi, hnd => by
    obtain ⟨hfresh, hnd'⟩ := nodup_cons.mp hnd
    rcases allocBlocks_raises_iff c n s hi with ⟨herr, hneed⟩ | ⟨⟨s1, hok⟩, hneed⟩
    · refine iff_of_false (fun h => h c ?_) fun h => hneed ?_
      · simp [allocDemand, herr]
      · simpa [wastedAll] using h [] c n demand rfl
    obtain ⟨hi1, hlen, hfix⟩ := allocBlocks_ok c n s hi s1 hok
    -- the needs of the caches that follow are as they were
    have hsame : ∀ e ∈ demand, s1.hugeNeed g e.1 e.2 = s.hugeNeed g e.1 e.2 := by
      intro e he
      rw [hugeNeed, hugeNeed, hfix]
      exact fun h => hfresh (mem_map.mpr ⟨e, he, h⟩)
    have hrun : allocDemand g ((c, n) :: demand) s = allocDemand g demand s1 := by
      simp [allocDemand, hok]
    have hwaste : ∀ served, wastedAll g ((c, n) :: served) s =
        wasted g c n s + wastedAll g served s1 := by
      intro served
      simp [wastedAll, hok]
    rw [hrun, allocDemand_iff demand s1 hi1 hnd']
    constructor
    · intro h served c' n' rest heq
      rcases cons_eq_append_iff.mp heq with ⟨rfl, htail⟩ | ⟨served', rfl, htail⟩
      · cases htail
        simpa [wastedAll] using hneed
      · have := h served' c' n' rest htail
        rw [map_congr_left fun e he => hsame e (by rw [htail]; simp at he ⊢; tauto)] at this
        rw [hwaste, cons_append, map_cons, sum_cons]
        push_cast
        linarith
    · intro h served' c' n' rest htail
      have := h ((c, n) :: served') c' n' rest (by rw [htail, cons_append])
      rw [hwaste, cons_append, map_cons, sum_cons] at this
      rw [map_congr_left fun e he => hsame e (by rw [htail]; simp at he ⊢; tauto)]
      push_cast at this
      linarith

/-- The test is sound for a demand exactly when, at the turn of each cache, the free huge blocks
    cover the needs up to that cache and the huge blocks wasted on the caches before it. -/
theorem canSatisfyDemand_sound_iff (g : Geometry C) (s : JengaBlockPool C H) (hs : Reached g s) (demand : Dict C ℕ) :
    (s.canSatisfyDemand g demand false = true → ∀ c, allocDemand g demand.entries s ≠ .error (.insufficientBlocks c)) ↔
    (s.canSatisfyDemand g demand false = true → ∀ served c n rest, demand.entries = served ++ (c, n) :: rest →
        ((served ++ [(c, n)]).map fun e => s.hugeNeed g e.1 e.2).sum + wastedAll g served s ≤
          s.freeHugeBlocks.length) :=
  imp_congr_right fun _ => allocDemand_iff demand.entries s hs.inv demand.nodup

/-! ### Any order of allocations -/

/-- An order that takes what is demanded of every cache. -/
abbrev Takes (order : List C) (demand : Dict C ℕ) : Prop := ∀ c, order.count c = (demand.get? c).getD 0

/-- Nothing is committed and no free huge block is typed, as in a new pool. -/
def Pristine (s : JengaBlockPool C H) : Prop :=
  (∀ c b, s.blockHash c b = none) ∧ ∀ huge ∈ s.freeHugeBlocks, s.littleBlockType huge = none

theorem Pristine.wastesHuge (h : Pristine s) (hi : Inv g s) : s.wastesHuge g c (n + 1) = false := by
  rw [JengaBlockPool.wastesHuge, and_eq_false_iff, decide_eq_false_iff_not, not_le]
  cases hlittle : s.freeLittleBlocks c with
  | nil =>
    right
    rw [fixedFreeBlocks, hlittle, hi.parked]
    push_cast [length_nil]
    nlinarith [ratio_pos_int g c]
  | cons bid rest =>
    left
    have htype := ((hi.little_mem c bid).mp (by simp [hlittle])).2.1
    have hout : g.hugeOf c bid ∉ s.freeHugeBlocks := fun hmem => by simp [h.2 _ hmem] at htype
    cases hfree : s.freeHugeBlocks <;> simp_all [takesHuge, preferClaimHuge, h.1 c bid]

theorem Pristine.allocBlock {bid : ℕ} (h : Pristine s) (hi : Inv g s) (hok : s.allocBlock g c = .ok (bid, s')) :
    Pristine s' := by
  refine ⟨fun c' b => ?_, ?_⟩
  · cases hb : s'.blockHash c' b with
    | none => rfl
    | some x => exact absurd ((allocBlock_spec hi hok).2.2.2.2.2 c' b x hb) (by simp [h.1])
  rcases allocBlock_cases hi c with ⟨herr, -⟩ | ⟨s1, e, b, rest, t, hok', hr, -, -, ha, -⟩
  · rw [herr] at hok
    cases hok
  rw [hok'] at hok
  cases hok
  intro huge hmem
  rw [ha.free] at hmem
  rw [ha.type]
  cases hr with
  | own => exact h.2 huge (mem_of_mem_erase hmem)
  | claim hfree hne hwhy hc =>
    have hmem := mem_of_mem_erase hmem
    rw [hc.free, hi.huge_nodup.mem_erase_iff] at hmem
    rw [hc.type, update_of_ne hmem.1]
    exact h.2 huge hmem.2

/-- An order succeeds only if the needs of its caches fit in the free huge blocks, and in a pristine pool exactly
    then. -/
theorem allocOrder_cases (keys : Finset C) : ∀ (order : List C) (s : JengaBlockPool C H), Inv g s →
    (∀ c ∈ order, c ∈ keys) → ((∃ c, allocOrder g order s = .error (.insufficientBlocks c)) ∧
        (Pristine s → ¬ ∑ c ∈ keys, s.hugeNeed g c (order.count c) ≤ s.freeHugeBlocks.length)) ∨
      ((∃ r, allocOrder g order s = .ok r) ∧ ∑ c ∈ keys, s.hugeNeed g c (order.count c) ≤ s.freeHugeBlocks.length)
  | [], s, hi, _ => .inr ⟨⟨_, rfl⟩, by simp [hugeNeed_zero hi]⟩
  | c :: order, s, hi, hkeys => by
    obtain ⟨hc, hkeys⟩ := forall_mem_cons.mp hkeys
    have hspl : ∀ (t : JengaBlockPool C H) (l : List C), ∑ k ∈ keys, t.hugeNeed g k (l.count k) =
        t.hugeNeed g c (l.count c) + ∑ k ∈ keys.erase c, t.hugeNeed g k (l.count k) :=
      fun t l => (Finset.add_sum_erase keys _ hc).symm
    rw [hspl, count_cons_self]
    cases hone : s.allocBlock g c with
    | error err =>
      obtain ⟨rfl, hneed⟩ := hugeNeed_of_error hi hone (order.count c)
      refine .inl ⟨⟨c, by simp [allocOrder, hone]⟩, fun _ h => hneed (le_trans ?_ h)⟩
      exact le_add_of_nonneg_right (Finset.sum_nonneg fun _ _ => hugeNeed_nonneg)
    | ok r =>
      obtain ⟨bid, s1⟩ := r
      have hi1 := (allocBlock_spec hi hone).1
      -- the needs of the other caches are as they were
      have hsame : ∑ k ∈ keys.erase c, s.hugeNeed g k ((c :: order).count k) =
          ∑ k ∈ keys.erase c, s1.hugeNeed g k (order.count k) := by
        refine Finset.sum_congr rfl fun k hk => ?_
        have hne := Finset.ne_of_mem_erase hk
        rw [hugeNeed, hugeNeed, (allocBlock_account hi hone).2 k, if_neg hne, sub_zero, count_cons_of_ne hne.symm]
      rw [hsame]
      have hstep := hugeNeed_step hi hone (order.count c)
      rcases allocOrder_cases keys order s1 hi1 hkeys with ⟨⟨c', herr⟩, hno⟩ | ⟨⟨r, hok⟩, hle⟩
      · refine .inl ⟨⟨c', by simp [allocOrder, hone, herr]⟩, fun hp h => ?_⟩
        refine hno (hp.allocBlock hi hone) ?_
        rw [hspl]
        rcases hstep with ⟨hw, -⟩ | ⟨-, hd⟩
        · rw [hp.wastesHuge hi] at hw
          cases hw
        · omega
      · refine .inr ⟨⟨_, by simp [allocOrder, hone, hok]; rfl⟩, ?_⟩
        rw [hspl] at hle
        rcases hstep with ⟨-, h0, h0', hl⟩ | ⟨-, hd⟩ <;> omega

theorem exists_takes (demand : Dict C ℕ) : ∃ order, Takes order demand := by
  refine ⟨demand.entries.flatMap fun e => replicate e.2 e.1, fun c => ?_⟩
  have hnd := demand.nodup
  rw [Dict.get?]
  generalize demand.entries = l at hnd ⊢
  induction l with
  | nil => rfl
  | cons e l ih =>
    obtain ⟨hfresh, hnd⟩ := nodup_cons.mp hnd
    rw [flatMap_cons, count_append, ih hnd, find?_cons, count_replicate]
    by_cases h : e.1 = c
    · have hnone : l.find? (fun e => e.1 = c) = none := by
        refine find?_eq_none.mpr fun e' he' hc => hfresh (mem_map.mpr ⟨e', he', ?_⟩)
        rw [h]
        simpa using hc
      simp [h, hnone]
    · simp [h]

theorem Takes.sum_eq {order : List C} {demand : Dict C ℕ} (h : Takes order demand) (f : C → ℕ → ℤ) :
    ∑ c ∈ (demand.entries.map Prod.fst).toFinset, f c (order.count c) = (demand.entries.map fun e => f e.1 e.2).sum := by
  rw [sum_toFinset _ demand.nodup, map_map]
  refine congrArg sum (map_congr_left fun e he => ?_)
  rw [comp_apply, h, Dict.get?_eq_some_iff.mpr he, Option.getD_some]

theorem Takes.mem {order : List C} {demand : Dict C ℕ} (h : Takes order demand) :
    ∀ c ∈ order, c ∈ (demand.entries.map Prod.fst).toFinset := by
  intro c hc
  by_contra hnone
  have := h c
  rw [Dict.get?_eq_none_iff.mpr (by simpa using hnone)] at this
  exact (count_pos_iff.mpr hc).ne' this

/-- A refused demand cannot be drawn in any order; at capacity a demand is admitted exactly when some order of it
    succeeds on a new pool. -/
theorem canSatisfyDemand_refusal (g : Geometry C) (s : JengaBlockPool C H) (hs : Reached g s) (demand : Dict C ℕ) :
    (s.canSatisfyDemand g demand false = false → ∀ order, Takes order demand →
      ∃ c, allocOrder g order s = .error (.insufficientBlocks c)) ∧
    (s.canSatisfyDemand g demand true = true ↔ ∃ order, Takes order demand ∧
      ∃ r, allocOrder g order (new g : JengaBlockPool C H) = .ok r) := by
  constructor
  · intro hrefused order ht
    rcases allocOrder_cases _ order s hs.inv ht.mem with ⟨herr, -⟩ | ⟨-, hle⟩
    · exact herr
    rw [ht.sum_eq, ← canSatisfyDemand_iff hs.inv, hrefused] at hle
    cases hle
  have hcapacity : s.canSatisfyDemand g demand true = (new g : JengaBlockPool C H).canSatisfyDemand g demand false := by
    have hmin : ∀ e : C × ℕ, min ((new g : JengaBlockPool C H).parkedAndTyped e.1)
        ((new g : JengaBlockPool C H).hugeNeed g e.1 e.2) = 0 := fun e => min_eq_left hugeNeed_nonneg
    simp only [canSatisfyDemand, hmin]
    simp [new]
  have hnew : Pristine (new g : JengaBlockPool C H) := ⟨fun _ _ => rfl, fun _ _ => rfl⟩
  rw [hcapacity, canSatisfyDemand_iff inv_new]
  constructor
  · intro hle
    obtain ⟨order, ht⟩ := exists_takes demand
    rcases allocOrder_cases _ order (new g : JengaBlockPool C H) inv_new ht.mem with ⟨-, hno⟩ | ⟨hok, -⟩
    · exact absurd (by rw [ht.sum_eq]; exact hle) (hno hnew)
    · exact ⟨order, ht, hok⟩
  · rintro ⟨order, ht, r, hok⟩
    rcases allocOrder_cases _ order (new g : JengaBlockPool C H) inv_new ht.mem with ⟨⟨c, herr⟩, -⟩ | ⟨-, hle⟩
    · rw [hok] at herr
      cases herr
    · rwa [ht.sum_eq] at hle

/-- `true` fills a huge block and frees one committed block of it; `false` fills another. One pristine huge block is
    left. -/
def onePristine : JengaBlockPool Bool ℕ :=
  [.alloc true, .alloc true, .alloc true, .alloc true, .commit 7 true 5, .free true 5,
    .alloc false, .alloc false].foldl (step fourByTwo) (new fourByTwo)

theorem onePristine_reached : Reached fourByTwo onePristine := Reachable.run _ .start (by decide)

theorem numFreeBlocks_exact_onePristine : ∃ (n : ℕ) (bids : List ℕ) (s' : JengaBlockPool Bool ℕ),
    onePristine.numFreeBlocks fourByTwo true = n ∧ allocOrder fourByTwo (replicate n true) onePristine = .ok (bids, s') ∧
      bids.length = n ∧ bids.Nodup ∧ (∀ bid ∈ bids, onePristine.refCnt true bid = 0) ∧
      s'.allocBlock fourByTwo true = .error (.insufficientBlocks true) ∧ step fourByTwo s' (.alloc true) = s' :=
  numFreeBlocks_exact fourByTwo onePristine onePristine_reached true

/-- Five blocks of `false` are refused. -/
theorem canSatisfyDemand_refusal_five : ∃ c, allocOrder fourByTwo (replicate 5 false) onePristine =
    .error (.insufficientBlocks c) :=
  (canSatisfyDemand_refusal fourByTwo onePristine onePristine_reached ⟨[(false, 5)], by decide⟩).1 (by decide)
    (replicate 5 false) (by decide)

/-- One block of each cache: `true` has a free block, `false` needs the pristine huge block. -/
def oneOfEach : Dict Bool ℕ := ⟨[(true, 1), (false, 1)], by decide⟩

/-- The demand is admitted, and then `true` claims the pristine huge block to spare its commit. -/
theorem oneOfEach_raises : Reached fourByTwo onePristine ∧
      onePristine.canSatisfyDemand fourByTwo oneOfEach false = true ∧
      allocDemand fourByTwo oneOfEach.entries onePristine = .error (.insufficientBlocks false) := by
  refine ⟨onePristine_reached, by decide, ?_⟩
  rfl

/-- Without the other cache's demand the condition holds: nothing comes after the waste. -/
theorem canSatisfyDemand_sound_iff_onePristine : Reached fourByTwo onePristine ∧
      onePristine.canSatisfyDemand fourByTwo ⟨[(true, 1)], by decide⟩ false = true ∧
      ∀ c, allocDemand fourByTwo [(true, 1)] onePristine ≠ .error (.insufficientBlocks c) := by
  refine ⟨onePristine_reached, by decide, ?_⟩
  refine (canSatisfyDemand_sound_iff fourByTwo onePristine onePristine_reached
    ⟨[(true, 1)], by decide⟩).mpr ?_ (by decide)
  intro _ served c n rest heq
  rcases cons_eq_append_iff.mp heq with ⟨rfl, htail⟩ | ⟨served', rfl, htail⟩
  · cases htail
    decide
  · simp at htail

end JengaBlockPool

end MojoProse.KvCache
