import MojoProse.KvCache.JengaPool
import MojoProse.Schemes.Run
import Mathlib.Data.List.Count
import Mathlib.Algebra.Order.BigOperators.Group.List

/-! The representation invariant of `JengaBlockPool`.

    A huge block is idle when no cache references bytes of it; the free huge blocks are the idle ones. While
    `alloc_block` hands a huge block over, that block is idle and not free: the invariant is stated with one exempt huge
    block, and every operation is a claim, an acquisition of a free little block or a release. -/

namespace MojoProse.KvCache
open Schemes Geometry List Function

variable {C H : Type} {g : Geometry C}

theorem Geometry.mem_littles {c : C} {huge bid : ℕ} : bid ∈ g.littles c huge ↔ g.hugeOf c bid = huge := by
  have hpos := g.ratio_pos c
  rw [littles, mem_range'_1, hugeOf, Nat.div_eq_iff hpos]
  constructor
  · rintro ⟨h1, h2⟩
    omega
  · rintro ⟨h1, h2⟩
    omega

theorem Geometry.littles_ne_nil (c : C) (huge : ℕ) : g.littles c huge ≠ [] := by
  have hpos := g.ratio_pos c
  simp [littles]
  omega

theorem Geometry.nodup_littles (c : C) (huge : ℕ) : (g.littles c huge).Nodup := nodup_range'

theorem Geometry.IsLittle.ne_zero {c : C} {bid : ℕ} (h : g.IsLittle c bid) : bid ≠ 0 := by
  rintro rfl
  have := h.1
  simp [hugeOf] at this

namespace JengaBlockPool
variable [DecidableEq C] [DecidableEq H] {s s' : JengaBlockPool C H} {e : Option ℕ} {c : C} {bid huge : ℕ}

/-- No cache references bytes of the huge block. -/
def Idle (g : Geometry C) (s : JengaBlockPool C H) (huge : ℕ) : Prop :=
  ∀ c bid, g.hugeOf c bid = huge → s.refCnt c bid = 0

/-- The invariant, with the huge block `e` on its way out of the free list. -/
structure InvExcept (g : Geometry C) (s : JengaBlockPool C H) (e : Option ℕ) : Prop where
  huge_nodup : s.freeHugeBlocks.Nodup
  huge_mem : ∀ huge, huge ∈ s.freeHugeBlocks ↔ g.IsHuge huge ∧ Idle g s huge ∧ e ≠ some huge
  little_nodup : ∀ c, (s.freeLittleBlocks c).Nodup
  little_mem : ∀ c bid, bid ∈ s.freeLittleBlocks c ↔
    g.IsLittle c bid ∧ s.littleBlockType (g.hugeOf c bid) = some c ∧ s.refCnt c bid = 0
  typed_of_ref : ∀ c bid, s.refCnt c bid ≠ 0 →
    g.IsLittle c bid ∧ s.littleBlockType (g.hugeOf c bid) = some c
  typed_of_hash : ∀ c bid, s.blockHash c bid ≠ none →
    g.IsLittle c bid ∧ s.littleBlockType (g.hugeOf c bid) = some c
  cache : ∀ c h bid, (s.prefixCaches c).get? h = some bid ↔ s.blockHash c bid = some h
  parked : ∀ c, s.parkedAndTyped c =
    (s.freeHugeBlocks.countP fun huge => s.littleBlockType huge = some c : ℕ)

abbrev Inv (g : Geometry C) (s : JengaBlockPool C H) : Prop := InvExcept g s none

theorem inv_new : Inv g (new g : JengaBlockPool C H) where
  huge_nodup := nodup_range'
  huge_mem := by
    intro huge
    simp only [new, mem_range'_1, IsHuge, Idle]
    constructor
    · rintro ⟨h1, h2⟩
      exact ⟨⟨by omega, by omega⟩, fun _ _ _ => trivial, by simp⟩
    · rintro ⟨⟨h1, h2⟩, -, -⟩
      omega
  little_nodup := fun _ => nodup_nil
  little_mem := by simp [new]
  typed_of_ref := by simp [new]
  typed_of_hash := by simp [new]
  cache := by simp [new]
  parked := by simp [new]

omit [DecidableEq C] [DecidableEq H] in
theorem hugeRefCnt_eq_zero_iff (huge : ℕ)
    (ht : ∀ c bid, s.refCnt c bid ≠ 0 → s.littleBlockType (g.hugeOf c bid) = some c) :
    s.hugeRefCnt g huge = 0 ↔ Idle g s huge := by
  constructor
  · intro h c bid hb
    by_contra hne
    have htype := ht c bid hne
    rw [hb] at htype
    simp only [hugeRefCnt, htype, sum_eq_zero_iff, mem_map] at h
    exact hne (h _ ⟨bid, mem_littles.mpr hb, rfl⟩)
  · intro h
    unfold hugeRefCnt
    split
    · rfl
    · rename_i c _
      rw [sum_eq_zero_iff]
      rintro _ hx
      obtain ⟨bid, hb, rfl⟩ := mem_map.mp hx
      exact h c bid (mem_littles.mp hb)

theorem InvExcept.hugeRefCnt_eq_zero_iff (hi : InvExcept g s e) : s.hugeRefCnt g huge = 0 ↔ Idle g s huge :=
  JengaBlockPool.hugeRefCnt_eq_zero_iff huge fun c bid h => (hi.typed_of_ref c bid h).2

theorem InvExcept.littles_subset (hi : InvExcept g s e) (hfree : huge ∈ s.freeHugeBlocks)
    (htype : s.littleBlockType huge = some c) : g.littles c huge ⊆ s.freeLittleBlocks c := by
  intro b hb
  have hb := mem_littles.mp hb
  obtain ⟨hreal, hidle, -⟩ := (hi.huge_mem huge).mp hfree
  rw [hi.little_mem, IsLittle, hb]
  exact ⟨hreal, htype, hidle c b hb⟩

omit [DecidableEq H] in
theorem update_block {β : Type} {f : C → ℕ → β} {n : β} (c' : C) (b : ℕ) :
    update f c (update (f c) bid n) c' b = if c' = c ∧ b = bid then n else f c' b := by
  by_cases hc : c' = c
  · subst hc
    by_cases hb : b = bid <;> simp [hb]
  · simp [hc]

theorem uncommitBlock_eq (s : JengaBlockPool C H) (c : C) (bid : ℕ) : s.uncommitBlock c bid =
      { s with
        blockHash := (s.uncommitBlock c bid).blockHash
        prefixCaches := (s.uncommitBlock c bid).prefixCaches } := by
  unfold uncommitBlock
  split <;> rfl

theorem blockHash_uncommitBlock (s : JengaBlockPool C H) (c c' : C) (bid bid' : ℕ) :
    (s.uncommitBlock c bid).blockHash c' bid' = if c' = c ∧ bid' = bid then none else s.blockHash c' bid' := by
  unfold uncommitBlock
  cases h : s.blockHash c bid with
  | none =>
    by_cases heq : c' = c ∧ bid' = bid
    · rw [if_pos heq, heq.1, heq.2]
      exact h
    · rw [if_neg heq]
  | some x => exact update_block c' bid'

theorem cache_uncommitBlock (hcache : ∀ c h bid, (s.prefixCaches c).get? h = some bid ↔ s.blockHash c bid = some h)
    (c : C) (bid : ℕ) : ∀ c' h bid', ((s.uncommitBlock c bid).prefixCaches c').get? h = some bid' ↔
      (s.uncommitBlock c bid).blockHash c' bid' = some h := by
  intro c' h bid'
  rw [blockHash_uncommitBlock]
  unfold uncommitBlock
  cases hx : s.blockHash c bid with
  | none =>
    by_cases heq : c' = c ∧ bid' = bid
    · have hnone := hcache c h bid
      rw [hx] at hnone
      rw [if_pos heq, heq.1, heq.2]
      exact hnone
    · rw [if_neg heq]
      exact hcache c' h bid'
  | some x =>
    by_cases hc : c' = c
    · subst hc
      simp only [setHash, setPrefixCache, update_self, Dict.get?_erase, hcache, true_and]
      constructor
      · rintro ⟨h1, h2⟩
        rw [if_neg, h1]
        rintro rfl
        rw [hx, Option.some.injEq] at h1
        exact h2 h1.symm
      · intro h1
        split_ifs at h1 with hb
        refine ⟨h1, ?_⟩
        rintro rfl
        -- one hash has one block
        have h2 := (hcache c' h bid').mpr h1
        have h3 := (hcache c' h bid).mpr hx
        rw [h2, Option.some.injEq] at h3
        exact hb h3
    · simp [setHash, setPrefixCache, hc, hcache]

theorem countP_erase_typed {l : List ℕ} {p : ℕ → Bool} {huge : ℕ} (hmem : huge ∈ l) :
    ((l.erase huge).countP p : ℤ) = l.countP p - if p huge then 1 else 0 := by
  rw [countP_erase]
  by_cases hp : p huge
  · have hpos : 0 < l.countP p := countP_pos_iff.mpr ⟨huge, hmem, hp⟩
    simp only [hmem, hp, and_self, if_true]
    omega
  · simp [hp]

/-- The state after the free block `bid` got its first reference: it leaves its list, its huge block is not free, its
    hash may go. -/
structure Acquired (g : Geometry C) (s : JengaBlockPool C H) (c : C) (bid : ℕ) (s' : JengaBlockPool C H) : Prop where
  free : s'.freeHugeBlocks = s.freeHugeBlocks.erase (g.hugeOf c bid)
  little : s'.freeLittleBlocks =
    update s.freeLittleBlocks c ((s.freeLittleBlocks c).erase bid)
  type : s'.littleBlockType = s.littleBlockType
  ref : s'.refCnt = update s.refCnt c (update (s.refCnt c) bid 1)
  hash : ∀ c b h, s'.blockHash c b = some h → s.blockHash c b = some h
  cache : ∀ c h b, (s'.prefixCaches c).get? h = some b ↔ s'.blockHash c b = some h
  parked : s'.parkedAndTyped = if g.hugeOf c bid ∈ s.freeHugeBlocks then
    update s.parkedAndTyped c (s.parkedAndTyped c - 1) else s.parkedAndTyped

theorem InvExcept.acquire (hi : InvExcept g s e) (hfree : bid ∈ s.freeLittleBlocks c)
    (he : e = none ∨ e = some (g.hugeOf c bid)) (ha : Acquired g s c bid s') : Inv g s' := by
  obtain ⟨hhuge, hlittle, htype, href, hhash, hcache, hparked⟩ := ha
  obtain ⟨hreal, htyped, hzero⟩ := (hi.little_mem c bid).mp hfree
  have href' : ∀ c' b, s'.refCnt c' b = if c' = c ∧ b = bid then 1 else s.refCnt c' b := by
    rw [href]
    exact update_block
  -- idleness changes only for the huge block of the acquired one
  have hidle : ∀ huge, Idle g s' huge ↔ Idle g s huge ∧ huge ≠ g.hugeOf c bid := by
    intro huge
    constructor
    · intro h
      refine ⟨fun c' b hb => ?_, ?_⟩
      · have := h c' b hb
        rw [href'] at this
        split_ifs at this
        exact this
      · rintro rfl
        have := h c bid rfl
        rw [href', if_pos ⟨rfl, rfl⟩] at this
        omega
    · rintro ⟨h, hne⟩ c' b hb
      rw [href', if_neg]
      · exact h c' b hb
      · rintro ⟨rfl, rfl⟩
        exact hne hb.symm
  refine ⟨?_, ?_, ?_, ?_, ?_, ?_, hcache, ?_⟩
  · rw [hhuge]
    exact hi.huge_nodup.erase _
  · intro huge
    rw [hhuge, hi.huge_nodup.mem_erase_iff, hi.huge_mem, hidle]
    constructor
    · rintro ⟨hne, h1, h2, -⟩
      exact ⟨h1, ⟨h2, hne⟩, by simp⟩
    · rintro ⟨h1, ⟨h2, hne⟩, -⟩
      refine ⟨hne, h1, h2, ?_⟩
      rcases he with rfl | rfl
      · simp
      · simpa using fun h => hne h.symm
  · rw [hlittle]
    exact (forall_update_iff _ fun _ => Nodup).mpr ⟨(hi.little_nodup c).erase _, fun c' _ => hi.little_nodup c'⟩
  · intro c' b
    rw [hlittle, htype, href']
    by_cases hc : c' = c
    · subst hc
      rw [update_self, (hi.little_nodup c').mem_erase_iff, hi.little_mem]
      by_cases hb : b = bid <;> simp [hb]
    · rw [update_of_ne hc, hi.little_mem]
      simp [hc]
  · intro c' b hne
    rw [htype]
    rw [href'] at hne
    split_ifs at hne with h
    · rw [h.1, h.2]
      exact ⟨hreal, htyped⟩
    · exact hi.typed_of_ref c' b hne
  · intro c' b hne
    rw [htype]
    obtain ⟨h, heq⟩ := Option.ne_none_iff_exists'.mp hne
    exact hi.typed_of_hash c' b (by simp [hhash c' b h heq])
  · intro c'
    rw [hhuge, htype, hparked]
    by_cases hmem : g.hugeOf c bid ∈ s.freeHugeBlocks
    · rw [if_pos hmem, countP_erase_typed hmem, htyped]
      by_cases hc : c' = c <;> simp [hc, hi.parked, @eq_comm C c]
    · rw [if_neg hmem, erase_of_not_mem hmem]
      exact hi.parked c'

theorem Inv.setRefCnt (hi : Inv g s) (hne : s.refCnt c bid ≠ 0) {n : ℕ} (hn : n ≠ 0) : Inv g (s.setRefCnt c bid n) := by
  have href : ∀ c' b, (s.setRefCnt c bid n).refCnt c' b = if c' = c ∧ b = bid then n else s.refCnt c' b := update_block
  have hzero : ∀ c' b, (s.setRefCnt c bid n).refCnt c' b = 0 ↔ s.refCnt c' b = 0 := by
    intro c' b
    rw [href]
    split_ifs with h
    · rw [h.1, h.2]
      exact ⟨fun h => absurd h hn, fun h => absurd h hne⟩
    · rfl
  have hidle : ∀ huge, Idle g (s.setRefCnt c bid n) huge ↔ Idle g s huge :=
    fun huge => forall₃_congr fun c' b _ => hzero c' b
  exact
    { huge_nodup := hi.huge_nodup
      huge_mem := fun huge => by rw [hidle]; exact hi.huge_mem huge
      little_nodup := hi.little_nodup
      little_mem := fun c' b => by rw [hzero]; exact hi.little_mem c' b
      typed_of_ref := fun c' b h => hi.typed_of_ref c' b fun h0 => h ((hzero c' b).mpr h0)
      typed_of_hash := hi.typed_of_hash
      cache := hi.cache
      parked := hi.parked }

/-- The last reference goes: the block is free again, and its huge block when nothing else in it is referenced. -/
theorem Inv.release (hi : Inv g s) (hone : s.refCnt c bid = 1) {l : List ℕ} (hl : l.Perm (bid :: s.freeLittleBlocks c))
    (hlittle : s'.freeLittleBlocks = update s.freeLittleBlocks c l) (htype : s'.littleBlockType = s.littleBlockType)
    (href : s'.refCnt = update s.refCnt c (update (s.refCnt c) bid 0))
    (hhash : s'.blockHash = s.blockHash) (hcache : s'.prefixCaches = s.prefixCaches)
    (hhuge : (Idle g s' (g.hugeOf c bid) ∧ s'.freeHugeBlocks = s.freeHugeBlocks ++ [g.hugeOf c bid] ∧
        s'.parkedAndTyped = update s.parkedAndTyped c (s.parkedAndTyped c + 1)) ∨
      (¬ Idle g s' (g.hugeOf c bid) ∧ s'.freeHugeBlocks = s.freeHugeBlocks ∧ s'.parkedAndTyped = s.parkedAndTyped)) :
    Inv g s' := by
  obtain ⟨hreal, htyped⟩ := hi.typed_of_ref c bid (by omega)
  have href' : ∀ c' b, s'.refCnt c' b = if c' = c ∧ b = bid then 0 else s.refCnt c' b := by
    rw [href]
    exact update_block
  have hbusy : g.hugeOf c bid ∉ s.freeHugeBlocks := by
    intro hmem
    have := ((hi.huge_mem _).mp hmem).2.1 c bid rfl
    omega
  have hidle : ∀ huge, huge ≠ g.hugeOf c bid → (Idle g s' huge ↔ Idle g s huge) := by
    intro huge hne
    refine forall₃_congr fun c' b hb => ?_
    rw [href', if_neg]
    rintro ⟨rfl, rfl⟩
    exact hne hb.symm
  refine ⟨?_, ?_, ?_, ?_, ?_, ?_, ?_, ?_⟩
  · rcases hhuge with ⟨-, hh, -⟩ | ⟨-, hh, -⟩ <;> rw [hh]
    · rw [nodup_append]
      refine ⟨hi.huge_nodup, nodup_singleton _, ?_⟩
      rintro a ha b hb rfl
      exact hbusy (mem_singleton.mp hb ▸ ha)
    · exact hi.huge_nodup
  · intro huge
    by_cases hne : huge = g.hugeOf c bid
    · subst hne
      rcases hhuge with ⟨hid, hh, -⟩ | ⟨hid, hh, -⟩ <;> rw [hh]
      · simp [hid, hreal.1, hreal.2, IsHuge]
      · simp [hid, hbusy]
    · have hmem : huge ∈ s'.freeHugeBlocks ↔ huge ∈ s.freeHugeBlocks := by
        rcases hhuge with ⟨-, hh, -⟩ | ⟨-, hh, -⟩ <;> rw [hh]
        simp [hne]
      rw [hmem, hidle huge hne]
      exact hi.huge_mem huge
  · rw [hlittle]
    refine (forall_update_iff _ fun _ => Nodup).mpr ⟨?_, fun c' _ => hi.little_nodup c'⟩
    rw [hl.nodup_iff, nodup_cons]
    refine ⟨fun hmem => ?_, hi.little_nodup c⟩
    have := ((hi.little_mem c bid).mp hmem).2.2
    omega
  · intro c' b
    rw [hlittle, htype, href']
    by_cases hc : c' = c
    · subst hc
      rw [update_self, hl.mem_iff, mem_cons, hi.little_mem]
      by_cases hb : b = bid
      · subst hb
        simp [hreal, htyped]
      · simp [hb]
    · rw [update_of_ne hc, hi.little_mem]
      simp [hc]
  · intro c' b hne
    rw [htype]
    rw [href'] at hne
    split_ifs at hne
    · exact absurd rfl hne
    · exact hi.typed_of_ref c' b hne
  · rw [htype, hhash]
    exact hi.typed_of_hash
  · rw [hcache, hhash]
    exact hi.cache
  · intro c'
    rw [htype]
    rcases hhuge with ⟨-, hh, hp⟩ | ⟨-, hh, hp⟩ <;> rw [hh, hp]
    · by_cases hc : c' = c <;> simp [hc, hi.parked, htyped, @eq_comm C c]
    · exact hi.parked c'

theorem foldl_uncommitBlock (old : C) : ∀ (l : List ℕ) (s : JengaBlockPool C H), ∃ hashes caches,
      l.foldl (fun s b => s.uncommitBlock old b) s = { s with blockHash := hashes, prefixCaches := caches } ∧
      (∀ c b, hashes c b = if c = old ∧ b ∈ l then none else s.blockHash c b) ∧
      ((∀ c h b, (s.prefixCaches c).get? h = some b ↔ s.blockHash c b = some h) →
        ∀ c h b, (caches c).get? h = some b ↔ hashes c b = some h)
  | [], s => ⟨s.blockHash, s.prefixCaches, rfl, by simp, fun h => h⟩
  | x :: l, s => by
    obtain ⟨hashes, caches, heq, hh, hc⟩ := foldl_uncommitBlock old l (s.uncommitBlock old x)
    refine ⟨hashes, caches, ?_, ?_, fun h => hc (cache_uncommitBlock h old x)⟩
    · rw [foldl_cons, heq, uncommitBlock_eq]
    · intro c b
      rw [hh, blockHash_uncommitBlock]
      by_cases h1 : c = old ∧ b ∈ l
      · rw [if_pos h1, if_pos ⟨h1.1, mem_cons_of_mem _ h1.2⟩]
      · rw [if_neg h1]
        by_cases h2 : c = old ∧ b = x
        · rw [if_pos h2, if_pos ⟨h2.1, by simp [h2.2]⟩]
        · rw [if_neg h2, if_neg]
          rintro ⟨hco, hb⟩
          rcases mem_cons.mp hb with hb | hb
          · exact h2 ⟨hco, hb⟩
          · exact h1 ⟨hco, hb⟩

omit [DecidableEq H] in
theorem foldl_pushFree (c : C) : ∀ (l : List ℕ) (s : JengaBlockPool C H), (∀ b ∈ l, s.blockHash c b = none) →
      l.reverse.foldl (fun s b => s.pushFree c b) s = s.setFreeLittle c (l ++ s.freeLittleBlocks c)
  | [], s, _ => by simp [setFreeLittle]
  | x :: l, s, h => by
    have hx : (s.setFreeLittle c (l ++ s.freeLittleBlocks c)).blockHash c x = none := h x (by simp)
    rw [reverse_cons, foldl_append, foldl_pushFree c l s fun b hb => h b (mem_cons_of_mem _ hb)]
    simp only [foldl_cons, foldl_nil, pushFree, hx]
    simp [setFreeLittle]

/-- An idle huge block of another type, or of none, loses its commits and becomes one of `c`. -/
theorem claimHugeBlock_ok (hzero : s.hugeRefCnt g huge = 0) (hout : huge ∉ s.freeHugeBlocks)
    (hne : s.littleBlockType huge ≠ some c)
    (hforeign : ∀ c' b, g.hugeOf c' b = huge → s.littleBlockType huge ≠ some c' → s.blockHash c' b = none) :
    ∃ hashes caches, s.claimHugeBlock g huge c = .ok
        { s with
          littleBlockType := update s.littleBlockType huge (some c)
          freeLittleBlocks := update s.freeLittleBlocks c (g.littles c huge ++ s.freeLittleBlocks c)
          blockHash := hashes
          prefixCaches := caches } ∧
      (∀ c' b, hashes c' b = if g.hugeOf c' b = huge then none else s.blockHash c' b) ∧
      ((∀ c h b, (s.prefixCaches c).get? h = some b ↔ s.blockHash c b = some h) →
        ∀ c h b, (caches c).get? h = some b ↔ hashes c b = some h) := by
  simp only [claimHugeBlock, hzero, ne_eq, not_true_eq_false, if_false, hne, unpark, hout]
  cases htype : s.littleBlockType huge with
  | none =>
    have hnone : ∀ c' b, g.hugeOf c' b = huge → s.blockHash c' b = none :=
      fun c' b hb => hforeign c' b hb (by simp [htype])
    refine ⟨s.blockHash, s.prefixCaches, ?_, ?_, fun h => h⟩
    · exact congrArg Except.ok (foldl_pushFree c _ { s with littleBlockType := update s.littleBlockType huge (some c) }
          fun b hb => hnone c b (mem_littles.mp hb))
    · intro c' b
      split_ifs with hb
      · exact hnone c' b hb
      · rfl
  | some old =>
    obtain ⟨hashes, caches, hfold, hh, hcc⟩ := foldl_uncommitBlock old (g.littles old huge) s
    have hhash : ∀ c' b, hashes c' b = if g.hugeOf c' b = huge then none else s.blockHash c' b := by
      intro c' b
      rw [hh]
      by_cases hb : g.hugeOf c' b = huge
      · rw [if_pos hb]
        by_cases hco : c' = old
        · rw [if_pos ⟨hco, by rw [← hco]; exact mem_littles.mpr hb⟩]
        · rw [if_neg (by simp [hco])]
          exact hforeign c' b hb (by rw [htype]; simpa using fun h => hco h.symm)
      · rw [if_neg hb, if_neg]
        rintro ⟨rfl, hmem⟩
        exact hb (mem_littles.mp hmem)
    refine ⟨hashes, caches, ?_, hhash, hcc⟩
    simp only [hfold]
    exact congrArg Except.ok (foldl_pushFree c _
        { s with
          littleBlockType := update s.littleBlockType huge (some c)
          blockHash := hashes
          prefixCaches := caches }
        fun b hb => (hhash c b).trans (if_pos (mem_littles.mp hb)))

/-- The state after the idle huge block `huge` has been handed to `c`. -/
structure Claimed (g : Geometry C) (s : JengaBlockPool C H) (huge : ℕ) (c : C) (s' : JengaBlockPool C H) : Prop where
  free : s'.freeHugeBlocks = s.freeHugeBlocks.erase huge
  type : s'.littleBlockType = update s.littleBlockType huge (some c)
  ref : s'.refCnt = s.refCnt
  little_self : s'.freeLittleBlocks c = g.littles c huge ++ s.freeLittleBlocks c
  little_other : ∀ c', c' ≠ c → s'.freeLittleBlocks c' =
    if s.littleBlockType huge = some c' then (s.freeLittleBlocks c').diff (g.littles c' huge)
    else s.freeLittleBlocks c'
  hash : ∀ c' b, s'.blockHash c' b = if g.hugeOf c' b = huge then none else s.blockHash c' b
  cache : ∀ c' h b, (s'.prefixCaches c').get? h = some b ↔ s'.blockHash c' b = some h
  parked : ∀ c', s'.parkedAndTyped c' =
    s.parkedAndTyped c' - if s.littleBlockType huge = some c' then 1 else 0

theorem claimFront_ok (hi : Inv g s) {rest : List ℕ} (hfree : s.freeHugeBlocks = huge :: rest)
    (hne : s.littleBlockType huge ≠ some c) : ∃ s', s.claimFront g c = .ok s' ∧ Claimed g s huge c s' := by
  have hmem : huge ∈ s.freeHugeBlocks := by simp [hfree]
  have hzero : s.hugeRefCnt g huge = 0 := hi.hugeRefCnt_eq_zero_iff.mpr ((hi.huge_mem huge).mp hmem).2.1
  have hout : huge ∉ rest := (nodup_cons.mp (hfree ▸ hi.huge_nodup)).1
  have herase : s.freeHugeBlocks.erase huge = rest := by rw [hfree, erase_cons_head]
  -- only its own cache can have commits in the huge block
  have hforeign : ∀ c' b, g.hugeOf c' b = huge → s.littleBlockType huge ≠ some c' →
      s.blockHash c' b = none := by
    intro c' b hb ht
    by_contra h
    exact ht (hb ▸ (hi.typed_of_hash c' b h).2)
  simp only [claimFront, hfree]
  cases htype : s.littleBlockType huge with
  | none =>
    obtain ⟨hashes, caches, hok, hh, hcc⟩ :=
      claimHugeBlock_ok (s := { s with freeHugeBlocks := rest }) (by simpa [hugeRefCnt] using hzero)
        hout hne hforeign
    refine ⟨_, hok, herase.symm, rfl, rfl, ?_, ?_, hh, hcc hi.cache, ?_⟩
    · simp
    · intro c' hc
      simp [hc, htype]
    · simp [htype]
  | some old =>
    have hold : old ≠ c := fun h => hne (by rw [htype, h])
    obtain ⟨hashes, caches, hok, hh, hcc⟩ := claimHugeBlock_ok
        (s := ({ s with freeHugeBlocks := rest }.addParked old (-1)).setFreeLittle old
          ((s.freeLittleBlocks old).diff (g.littles old huge)))
        (by simpa [hugeRefCnt, addParked, setFreeLittle] using hzero) hout hne hforeign
    refine ⟨_, (if_neg hold).trans hok, herase.symm, rfl, rfl, ?_, ?_, hh, hcc hi.cache, ?_⟩
    · simp [setFreeLittle, addParked, hold.symm]
    · intro c' hc
      by_cases hc' : c' = old <;> simp [setFreeLittle, addParked, hc, hc', hold, htype, @eq_comm C old]
    · intro c'
      by_cases hc' : c' = old <;> simp [setFreeLittle, addParked, hc', htype, sub_eq_add_neg, @eq_comm C old]

/-- The handed-over huge block is idle and not free; everything else is as the invariant wants. -/
theorem Claimed.invExcept (hi : Inv g s) (hmem : huge ∈ s.freeHugeBlocks)
    (hne : s.littleBlockType huge ≠ some c) (hc : Claimed g s huge c s') : InvExcept g s' (some huge) := by
  obtain ⟨hreal, hidle, -⟩ := (hi.huge_mem huge).mp hmem
  have hid : ∀ huge', Idle g s' huge' ↔ Idle g s huge' := by
    intro huge'
    simp [Idle, hc.ref]
  have hbusy : ∀ c' b, s.refCnt c' b ≠ 0 → g.hugeOf c' b ≠ huge := fun c' b h hb => h (hidle c' b hb)
  have htype : ∀ c' b, g.hugeOf c' b ≠ huge →
      s'.littleBlockType (g.hugeOf c' b) = s.littleBlockType (g.hugeOf c' b) := by
    intro c' b hb
    rw [hc.type, update_of_ne hb]
  -- the old owner's list loses exactly its blocks in the huge block
  have hother : ∀ c', c' ≠ c → ∀ b, b ∈ s'.freeLittleBlocks c' ↔
      b ∈ s.freeLittleBlocks c' ∧ g.hugeOf c' b ≠ huge := by
    intro c' hc' b
    rw [hc.little_other c' hc']
    split_ifs with ht
    · rw [(hi.little_nodup c').mem_sdiff_iff, mem_littles]
    · refine ⟨fun hb => ⟨hb, ?_⟩, fun hb => hb.1⟩
      rintro rfl
      exact ht ((hi.little_mem c' b).mp hb).2.1
  refine ⟨?_, ?_, ?_, ?_, ?_, ?_, hc.cache, ?_⟩
  · rw [hc.free]
    exact hi.huge_nodup.erase _
  · intro huge'
    rw [hc.free, hi.huge_nodup.mem_erase_iff, hi.huge_mem, hid]
    constructor
    · rintro ⟨hne', h1, h2, -⟩
      exact ⟨h1, h2, by simpa using fun h => hne' h.symm⟩
    · rintro ⟨h1, h2, h3⟩
      exact ⟨fun h => h3 (by rw [h]), h1, h2, by simp⟩
  · intro c'
    by_cases hc' : c' = c
    · subst hc'
      rw [hc.little_self, nodup_append]
      refine ⟨nodup_littles _ _, hi.little_nodup c', ?_⟩
      rintro a ha b hb rfl
      apply hne
      rw [← mem_littles.mp ha]
      exact ((hi.little_mem c' a).mp hb).2.1
    · rw [hc.little_other c' hc']
      split_ifs
      · exact (hi.little_nodup c').diff
      · exact hi.little_nodup c'
  · intro c' b
    by_cases hc' : c' = c
    · subst hc'
      rw [hc.little_self, mem_append, mem_littles, hi.little_mem, hc.ref]
      by_cases hb : g.hugeOf c' b = huge
      · have htyped : s'.littleBlockType (g.hugeOf c' b) = some c' := by
          rw [hc.type, hb, update_self]
        simp [hb, hidle c' b hb, IsLittle, hreal]
        rw [← hb, htyped]
      · simp [hb, htype c' b hb]
    · rw [hother c' hc', hi.little_mem, hc.ref]
      by_cases hb : g.hugeOf c' b = huge
      · have htyped : s'.littleBlockType huge = some c := by rw [hc.type, update_self]
        have hcc : ¬ c = c' := fun h => hc' h.symm
        simp [hb, htyped, hcc]
      · simp [hb, htype c' b hb]
  · intro c' b href
    rw [hc.ref] at href
    rw [htype c' b (hbusy c' b href)]
    exact hi.typed_of_ref c' b href
  · intro c' b hhash
    rw [hc.hash] at hhash
    split_ifs at hhash with hb
    · exact absurd rfl hhash
    · rw [htype c' b hb]
      exact hi.typed_of_hash c' b hhash
  · intro c'
    rw [hc.parked, hc.free, hi.parked]
    have hcongr : (s.freeHugeBlocks.erase huge).countP (fun x => s'.littleBlockType x = some c') =
        (s.freeHugeBlocks.erase huge).countP (fun x => s.littleBlockType x = some c') := by
      refine countP_congr fun x hx => ?_
      rw [hc.type, update_of_ne (hi.huge_nodup.mem_erase_iff.mp hx).1]
    rw [hcongr, countP_erase_typed hmem]
    simp

end JengaBlockPool

end MojoProse.KvCache
