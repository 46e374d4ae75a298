import MojoProse.KvCache.JengaServing
import MojoProse.Schemes.Bisect

/-! Capacity planning: which requests an empty pool is said to serve, and which it serves.

    Planning reserves a sliding-window leaf the blocks of its window. A forward draws a block for every
    slot up to the end of its chunk, and the window lets go of blocks only after it. -/

namespace MojoProse.KvCache
open Schemes Support Pipelines KVGroup KVTree List JengaBlockPool Function JengaBlockManager

variable {C H R : Type}

def AttentionGroup.blocksToReserve (pageSize numBlocks : ℕ) : AttentionGroup → ℕ
  | .full => numBlocks
  | .slidingWindow w _ => min numBlocks (ceildiv w pageSize).toNat

/-- A leaf reached through a page table, one that holds a request's state, or one drawn for scratch. -/
inductive KVLeafRegion
  | paged (group : AttentionGroup) (pageSize : ℕ)
  | recurrent
  | scratch

/-- `blocks_to_reserve` of each kind of leaf. -/
def KVLeafRegion.blocksToReserve (numBlocks : ℕ) : KVLeafRegion → ℕ
  | paged group pageSize => group.blocksToReserve pageSize numBlocks
  | recurrent => 2
  | scratch => 1

/-- What `_max_seq_len_fitting_in_geometry` is given: the leaves, at least one or `max` raises, each with its ratio. -/
structure LeafPlan (C : Type) where
  leaf : C → KVLeafRegion
  leaves : List C
  blockSize : ℕ
  blockSize_pos : 0 < blockSize
  allocatableHugeBlocks : ℕ
  geometry : Geometry C

namespace LeafPlan
variable (p : LeafPlan C)

/-- What a leaf reserves for a request of `seqLen` tokens. -/
def reserved (seqLen : ℕ) (c : C) : ℕ := (p.leaf c).blocksToReserve (ceildiv seqLen p.blockSize).toNat

def fits (seqLen : ℕ) : Bool :=
  pristinePoolCanSatisfy p.allocatableHugeBlocks p.geometry.cacheRatios
    (p.leaves.map fun c => (c, (p.reserved seqLen c : ℤ)))

def upperBound : ℕ := p.allocatableHugeBlocks * p.blockSize * (p.leaves.map p.geometry.cacheRatios).foldr max 0

/-- `_max_seq_len_fitting_in_geometry`: where states alone exceed the pool, not even length zero fits. -/
def maxSeqLen : Option ℤ :=
  let searchSpace := p.upperBound + 2
  let idx := bisectLeft (fun seqLen => !p.fits seqLen) 0 searchSpace
  if idx < searchSpace then some (idx - 1) else none

end LeafPlan

namespace JengaBlockManager
section
variable (cfg : ManagerConfig C H)

def blocksToReserve (seqLen : ℕ) : Dict C ℕ where
  entries := cfg.leaves.map fun c =>
    (c, (cfg.group c).blocksToReserve cfg.blockSize (ceildiv seqLen cfg.blockSize).toNat)
  nodup := by simpa [map_map, comp_def] using cfg.leaves_nodup

def fitsInCache (s : JengaBlockManager C H R) (seqLen : ℕ) : Bool :=
  (s.pools 0).canSatisfyDemand cfg.geometry (blocksToReserve cfg seqLen) true

/-- `fits`: the same from the geometry alone. -/
def fits (allocatableHugeBlocks seqLen : ℕ) : Bool :=
  pristinePoolCanSatisfy allocatableHugeBlocks cfg.geometry.cacheRatios
    ((blocksToReserve cfg seqLen).entries.map fun e => (e.1, (e.2 : ℤ)))

/-- The search over the leaves of an attention manager. -/
def maxSeqLenFittingInGeometry (allocatableHugeBlocks : ℕ) : Option ℕ :=
  let upperBound := allocatableHugeBlocks * cfg.blockSize * (cfg.leaves.map cfg.geometry.cacheRatios).foldr max 0
  let searchSpace := upperBound + 2
  let idx := bisectLeft (fun seqLen => !fits cfg allocatableHugeBlocks seqLen) 0 searchSpace
  if idx < searchSpace then some (idx - 1) else none

def effectiveMaxSeqLength : Option ℕ := maxSeqLenFittingInGeometry cfg (cfg.geometry.numHugeBlocks - 1)

end

variable {cfg : ManagerConfig C H} {n m k : ℕ}

theorem hugeFor_mono {g : Geometry C} {c : C} (h : m ≤ n) : hugeFor g c m ≤ hugeFor g c n :=
  Nat.div_le_div_right (by omega)

theorem pristinePoolCanSatisfy_iff_fits {g : Geometry C} {leaves : List C} {f : C → ℕ} :
    pristinePoolCanSatisfy k g.cacheRatios (leaves.map fun c => (c, (f c : ℤ))) = true ↔
      (leaves.map fun c => hugeFor g c (f c)).sum ≤ k := by
  have hone : ∀ c, (if (f c : ℤ) > 0 then ceildiv (f c) (g.cacheRatios c) else 0) =
      (hugeFor g c (f c) : ℤ) := by
    intro c
    have hfill : ceildiv (f c) (g.cacheRatios c) = (hugeFor g c (f c) : ℤ) := by
      rw [← Int.toNat_of_nonneg (ceildiv_nonneg (ratio_pos_int g c) (Int.natCast_nonneg _)), Nat.cast_inj]
      refine eq_of_forall_ge_iff fun k => ?_
      rw [toNat_ceildiv_le_iff (g.ratio_pos c), hugeFor_le_iff, Nat.cast_le]
    rw [hfill, ite_eq_left_iff]
    intro h0
    have : hugeFor g c (f c) ≤ 0 := hugeFor_le_iff.mpr (by omega)
    omega
  rw [pristinePoolCanSatisfy_iff, map_map]
  simp only [comp_def, hone]
  rw [← Nat.cast_le (α := ℤ), Nat.cast_list_sum, map_map]
  rfl

/-- What planning reserves a leaf for a request of `seqLen` tokens. -/
def reserved (cfg : ManagerConfig C H) (seqLen : ℕ) (c : C) : ℕ :=
  (cfg.group c).blocksToReserve cfg.blockSize (ceildiv seqLen cfg.blockSize).toNat

theorem fits_iff : fits cfg k n = true ↔
    (cfg.leaves.map fun c => hugeFor cfg.geometry c (reserved cfg n c)).sum ≤ k := by
  rw [fits, ← pristinePoolCanSatisfy_iff_fits, blocksToReserve, map_map]
  rfl

end JengaBlockManager

theorem KVLeafRegion.blocksToReserve_mono (l : KVLeafRegion) {m n : ℕ} (h : m ≤ n) :
    l.blocksToReserve m ≤ l.blocksToReserve n := by
  cases l with
  | paged group pageSize =>
    cases group with
    | full => exact h
    | slidingWindow w hw => exact min_le_min_right _ h
  | recurrent => exact le_rfl
  | scratch => exact le_rfl

/-- A leaf that reserves fewer blocks than there are slots has reached its cap. -/
theorem KVLeafRegion.blocksToReserve_capped (l : KVLeafRegion) {n : ℕ} (m : ℕ) (h : l.blocksToReserve n < n) :
    l.blocksToReserve m ≤ l.blocksToReserve n := by
  cases l with
  | paged group pageSize =>
    cases group with
    | full => exact absurd h (lt_irrefl n)
    | slidingWindow w hw =>
      simp only [blocksToReserve, AttentionGroup.blocksToReserve] at h ⊢
      omega
  | recurrent => exact le_rfl
  | scratch => exact le_rfl

namespace LeafPlan
variable {p : LeafPlan C} {n m : ℕ}

theorem fits_of_reserved_le (hle : ∀ c ∈ p.leaves, p.reserved m c ≤ p.reserved n c) (h : p.fits n = true) :
    p.fits m = true := by
  rw [fits, pristinePoolCanSatisfy_iff_fits] at h ⊢
  exact (sum_le_sum fun c hc => hugeFor_mono (hle c hc)).trans h

theorem fits_mono (h : m ≤ n) (hn : p.fits n = true) : p.fits m = true := by
  exact fits_of_reserved_le (fun c _ =>
    (p.leaf c).blocksToReserve_mono (toNat_ceildiv_mono p.blockSize_pos (by omega))) hn

/-- A length past the search's bound needs more blocks than any leaf has, unless every leaf has reached its cap. -/
theorem fits_past_bound (h : p.fits (p.upperBound + 1) = true) : p.fits n = true := by
  refine fits_of_reserved_le (fun c hc => (p.leaf c).blocksToReserve_capped _ ?_) h
  have hratio : p.geometry.cacheRatios c ≤ (p.leaves.map p.geometry.cacheRatios).foldr max 0 :=
    le_max_of_le (mem_map_of_mem hc) le_rfl
  rw [fits, pristinePoolCanSatisfy_iff_fits] at h
  have hcost := hugeFor_le_iff.mp ((single_le_sum (by simp) _ (mem_map_of_mem hc)).trans h)
  refine hcost.trans_lt ((Nat.mul_le_mul_left _ hratio).trans_lt ?_)
  rw [upperBound]
  generalize (p.leaves.map p.geometry.cacheRatios).foldr max 0 = ratio
  by_contra hge
  have hge := (toNat_ceildiv_le_iff p.blockSize_pos).mp (not_lt.mp hge)
  have : p.allocatableHugeBlocks * p.blockSize * ratio + 1 ≤ p.allocatableHugeBlocks * ratio * p.blockSize := by
    exact_mod_cast hge
  rw [mul_right_comm] at this
  omega

theorem maxSeqLen_spec (p : LeafPlan C) (n : ℕ) : (p.maxSeqLen = none → p.fits n = true) ∧
    ∀ z, p.maxSeqLen = some z → (p.fits n = true ↔ (n : ℤ) ≤ z) := by
  have hmono : ∀ i j, i ≤ j → (!p.fits i) = true → (!p.fits j) = true := by
    intro i j hij hi
    by_contra hj
    rw [fits_mono hij (by simpa using hj)] at hi
    cases hi
  obtain ⟨-, hbelow, hat⟩ := bisectLeft_spec hmono 0 (p.upperBound + 2) (Nat.zero_le _) (by simp) le_rfl (by simp)
  rw [maxSeqLen]
  generalize bisectLeft (fun seqLen => !p.fits seqLen) 0 (p.upperBound + 2) = idx at hbelow hat ⊢
  simp only [Bool.not_eq_false', Bool.not_eq_true'] at hbelow hat
  split_ifs with hlt
  · refine ⟨nofun, fun z hz => ?_⟩
    obtain rfl := Option.some.inj hz
    constructor
    · intro hn
      by_contra hgt
      rw [fits_mono (show idx ≤ n by omega) hn] at hat
      cases hat hlt
    · exact fun hn => hbelow n (by omega)
  · exact ⟨fun _ => fits_past_bound (hbelow _ (by omega)), nofun⟩

/-- The search answers `None` exactly when every length fits, and else the bound of the lengths that do. -/
theorem maxSeqLen_exact (p : LeafPlan C) : (p.maxSeqLen = none ↔ ∀ m, p.fits m = true) ∧
    ∀ n, p.maxSeqLen = some n → ∀ m : ℕ, p.fits m = true ↔ (m : ℤ) ≤ n := by
  refine ⟨⟨fun h m => (maxSeqLen_spec p m).1 h, fun h => ?_⟩, fun n hn m => (maxSeqLen_spec p m).2 n hn⟩
  cases hz : p.maxSeqLen with
  | none => rfl
  | some z =>
    have := ((maxSeqLen_spec p _).2 z hz).mp (h (z.toNat + 1))
    omega

end LeafPlan

namespace JengaBlockManager
variable {cfg : ManagerConfig C H} {n m k : ℕ}

def plan (cfg : ManagerConfig C H) : LeafPlan C :=
  ⟨fun c => .paged (cfg.group c) cfg.blockSize, cfg.leaves, cfg.blockSize, cfg.blockSize_pos,
    cfg.geometry.numHugeBlocks - 1, cfg.geometry⟩

theorem fits_plan : fits cfg (cfg.geometry.numHugeBlocks - 1) = (plan cfg).fits := by
  funext n
  rw [fits, blocksToReserve, map_map]
  rfl

/-- The requests that fit are those up to `effective_max_seq_length`, all of them when it is `None`. -/
theorem fitsInCache_iff_le_effectiveMaxSeqLength (s : JengaBlockManager C H R) (n : ℕ) :
    fitsInCache cfg s n = true ↔ ∀ m, effectiveMaxSeqLength cfg = some m → n ≤ m := by
  have hfits : fitsInCache cfg s n = fits cfg (cfg.geometry.numHugeBlocks - 1) n := rfl
  have hsearch : effectiveMaxSeqLength cfg = (plan cfg).maxSeqLen.map Int.toNat := by
    simp only [effectiveMaxSeqLength, maxSeqLenFittingInGeometry, LeafPlan.maxSeqLen, fits_plan]
    rw [apply_ite (Option.map Int.toNat)]
    exact if_congr Iff.rfl (by simp [LeafPlan.upperBound, plan]) rfl
  have hzero : (plan cfg).fits 0 = true := by
    rw [← fits_plan, fits_iff, sum_eq_zero]
    · exact Nat.zero_le _
    simp only [mem_map]
    rintro _ ⟨c, -, rfl⟩
    refine Nat.le_zero.mp (hugeFor_le_iff.mpr ?_)
    rw [reserved]
    cases cfg.group c <;> simp [AttentionGroup.blocksToReserve, ceildiv]
  rw [hfits, fits_plan, hsearch]
  obtain ⟨hnone, hsome⟩ := (plan cfg).maxSeqLen_spec n
  cases hz : (plan cfg).maxSeqLen with
  | none => simpa using hnone hz
  | some z =>
    have := (((plan cfg).maxSeqLen_spec 0).2 z hz).mp hzero
    simp only [hsome z hz, Option.map_some, Option.some.injEq, forall_eq']
    omega

/-- The most blocks a leaf has in use over the forwards from these contexts. -/
def peak (cfg : ManagerConfig C H) (ctxs : List TextContext) (c : C) : ℕ :=
  (ctxs.map (blocksInUse cfg c)).foldr max 0

/-- Planning by what the forwards have in use: the test of `_fits_in_cache`, asked about the peaks. -/
def planned (cfg : ManagerConfig C H) (ctxs : List TextContext) : Bool :=
  pristinePoolCanSatisfy (cfg.geometry.numHugeBlocks - 1 : ℕ) cfg.geometry.cacheRatios
    (cfg.leaves.map fun c => (c, (peak cfg ctxs c : ℤ)))

/-- What planning reserves is in use in the last forward of the request. -/
theorem Forward.reserved_le {ctx ctx' : TextContext} (h : Forward cfg ctx ctx') (c : C) :
    reserved cfg ctx'.tokens.processedLength c ≤ blocksInUse cfg c ctx := by
  generalize hn : (ceildiv ctx'.tokens.processedLength cfg.blockSize).toNat = n
  have hcover : ctx'.tokens.processedLength ≤ n * cfg.blockSize := by
    exact_mod_cast (toNat_ceildiv_le_iff cfg.blockSize_pos).mp hn.le
  have hreq : n ≤ numRequiredBlocks cfg ctx := hn ▸ toNat_ceildiv_mono cfg.blockSize_pos h.2
  have hfilled : ctx.tokens.processedLength / cfg.blockSize < n :=
    (Nat.div_lt_iff_lt_mul cfg.blockSize_pos).mpr (h.1.trans_le hcover)
  have hle : reserved cfg ctx'.tokens.processedLength c ≤ n := by
    rw [reserved, hn]
    cases cfg.group c with
    | full => exact le_rfl
    | slidingWindow w hw => exact min_le_left _ _
  rw [blocksInUse, slotsInUse]
  split_ifs
  · exact hle.trans hreq
  rw [windowLow]
  cases hg : cfg.group c with
  | full => exact hle.trans hreq
  | slidingWindow w hw =>
    -- the window in whole blocks, and the block of the next token
    have hcap : (ceildiv w cfg.blockSize).toNat ≤ blocksInWindow w cfg.blockSize + 1 := by
      rw [toNat_ceildiv_le_iff cfg.blockSize_pos, Nat.cast_le, add_mul]
      have hp := cfg.blockSize_pos
      have hwin := le_blocksInWindow_mul (w := w) hp
      omega
    rw [reserved, hn, hg] at hle ⊢
    simp only [AttentionGroup.window, AttentionGroup.blocksToReserve] at hle ⊢
    omega

theorem reserved_le_peak : ∀ (ctxs : List TextContext) (ctx last : TextContext),
    (ctx :: ctxs).IsChain (Forward cfg) → ctxs.getLast? = some last → ∀ c,
    reserved cfg last.tokens.processedLength c ≤ peak cfg (ctx :: ctxs).dropLast c
  | [], _, _, _, hlast, _ => by cases hlast
  | [ctx'], ctx, last, hchain, hlast, c => by
    cases hlast
    exact ((isChain_cons_cons.mp hchain).1.reserved_le c).trans (le_max_left _ _)
  | ctx' :: ctx'' :: rest, ctx, last, hchain, hlast, c =>
      (reserved_le_peak (ctx'' :: rest) ctx' last (isChain_cons_cons.mp hchain).2
        (by simpa using hlast) c).trans (le_max_right _ _)

variable [DecidableEq C] [DecidableEq H]

theorem within_new (g : Geometry C) (budget : C → ℕ) : (JengaBlockPool.new g : JengaBlockPool C H).Within g budget :=
  ⟨JengaBlockPool.inv_new, fun _ => Pairwise.nil, fun c => by
    have hnone : (JengaBlockPool.new g : JengaBlockPool C H).typedTo g c = ∅ :=
      Finset.filter_eq_empty_iff.mpr fun _ _ h => by cases h
    rw [hnone, Finset.card_empty]
    exact Nat.zero_le _⟩

theorem alone_new (cfg : ManagerConfig C H) (budget : C → ℕ) : Alone cfg budget 0 ⟨.new cfg.geometry, fun _ => []⟩ := by
  have hempty : ∀ c, (JengaBlockPool.new cfg.geometry : JengaBlockPool C H).inUse cfg.geometry c = ∅ := by
    intro c
    refine Finset.filter_eq_empty_iff.mpr fun _ _ h => ?_
    simp [JengaBlockPool.new] at h
  refine ⟨within_new _ _, ?_, fun c => ⟨?_, by simp⟩, ?_, ?_, fun _ _ _ => rfl⟩
  · funext k
    simp [live, refsOfRows, JengaBlockPool.new]
  · rw [windowLow]
    cases (cfg.group c).window cfg.blockSize <;> simp
  · simp [hempty]
  · simp [hempty]

variable [DecidableEq R]

/-- One leaf that slides over two tokens, with a page of one token and two blocks to give out. -/
def windowOnly : ManagerConfig Unit Unit where
  geometry := ⟨3, fun _ => 1, by decide, fun _ => Nat.one_pos⟩
  leaves := [()]
  leaves_nodup := by decide
  mem_leaves := by decide
  group _ := .slidingWindow 2 Nat.one_lt_two
  blockSize := 1
  blockSize_pos := Nat.one_pos
  numReplicas := 1
  enablePrefixCaching := false
  onlyUseConnectorLastLevelCache := false
  crossReplicaCopyEnabled := false
  hasConnector := false
  maxNumInputTokens := none
  numDraftTokens := 0
  numDraftTokensPerStep := 0
  computeBlockHashes _ _ := .ok []

def nothingCached : CallEnv Unit Unit where
  landed _ _ := false
  lookup _ desired := replicate desired.length false
  lookup_length := by simp
  load := .refused

def decodingAt (tokens : List ℤ) : TextContext :=
  ⟨{ TokenBuffer.initial [1] with
      all := tokens, processingRange := ⟨tokens.length - 1, tokens.length⟩ }, 0⟩

end JengaBlockManager

end MojoProse.KvCache
