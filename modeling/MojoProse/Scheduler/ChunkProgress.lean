import MojoProse.Scheduler.Config

/-! Whether a fresh chunking budget always makes progress.

    The head request is offered to a fresh `ActiveTokenBudget` at every step. A refusal there is final: no later step
    has more room. The floor on the size of a piece refuses a context that is longer than `limit` and shorter than two
    pieces, so progress needs `2 * min ≤ limit + 1`, which `__post_init__` does not check. -/

namespace MojoProse.Scheduler
open Pipelines ActiveTokenBudget TokenBuffer List TokenGenerationSchedulerConfig

/-- A context with tokens to encode. -/
structure CeContext (t : TokenBuffer) : Prop extends t.Proper where
  offset : 0 ≤ t.processingOffset
  active : 1 ≤ t.activeLength

/-- A budget that has room for a CE context and may cut it. -/
structure Fresh (b : ActiveTokenBudget) : Prop where
  chunking : b.allowChunking = true
  applies : .CE ∈ b.applicableTypes
  limit_pos : 0 < b.limit
  floor_nonneg : 0 ≤ b.minChunkTokens

def Progress (b : ActiveTokenBudget) (t : TokenBuffer) : Prop :=
  ∃ status t', b.statusAfterContext t .CE = .ok (status, t') ∧ status ≠ .exhausted ∧
    1 ≤ t'.activeLength

/-- Offer the context to the same fresh budget step after step, and collect the windows that are encoded. -/
def encode (b : ActiveTokenBudget) : ℕ → TokenBuffer → Option (List ℤ)
  | 0, _ => none
  | fuel + 1, t =>
    match b.statusAfterContext t .CE with
    | .error _ => none
    | .ok (.exhausted, t) => encode b fuel t
    | .ok (_, t) =>
      if t.activelyChunked then
        match t.advanceChunk with
        | .ok u => (encode b fuel u).map (t.active ++ ·)
        | .error _ => none
      else some t.active

variable {b : ActiveTokenBudget} {t : TokenBuffer}

section
variable (hf : Fresh b)
include hf

theorem chunkSize_eq_none_iff (hlong : b.limit < t.activeLength) :
    b.chunkSize t .CE = none ↔ b.limit < b.minChunkTokens ∨ t.activeLength < 2 * b.minChunkTokens := by
  have := hf.limit_pos
  unfold chunkSize
  simp only
  split_ifs with hmove hsmall hsmall
  · simp only [true_iff]; omega
  · split <;> (try split_ifs) <;> simp <;> omega
  · simp only [true_iff]; omega
  · split <;> (try split_ifs) <;> simp <;> omega

theorem chunkSize_pos {n : ℤ} (h : b.chunkSize t .CE = some n) : 0 < n := by
  have hlim := hf.limit_pos
  have hspec := (chunkSize_spec h).2
  omega

theorem statusAfterContext_fresh : b.statusAfterContext t .CE =
      if t.activeLength ≤ b.limit then
        match b.boundaryCut t t.activeLength .CE with
        | some aligned => do
          let t ← t.chunk aligned
          return (.available, t)
        | none => .ok (if t.activeLength = b.limit then b.statusAtLimit else .available, t)
      else
        match b.chunkSize t .CE with
        | none => .ok (.exhausted, t)
        | some n =>
          match t.chunk n with
          | .ok t => .ok (b.statusAtLimit, t)
          | .error _ => .ok (.exhausted, t) := by
  have := hf.limit_pos
  have := limit_le_remaining (b := b)
  have hsoft : ¬ b.allowChunking = false := by simp [hf.chunking]
  unfold statusAfterContext
  rw [if_neg (by simp [hf.applies]), if_neg (by omega)]
  exact congrArg (fun r => if t.activeLength ≤ b.limit then _ else r) (if_neg hsoft)

/-- What a fresh budget does with a context it does not refuse: nothing, or a proper cut. -/
theorem fresh_cases (hc : CeContext t) (hok : t.activeLength ≤ b.limit ∨
      (b.minChunkTokens ≤ b.limit ∧ 2 * b.minChunkTokens ≤ t.activeLength)) :
    ∃ status t', b.statusAfterContext t .CE = .ok (status, t') ∧ status ≠ .exhausted ∧
      (t' = t ∨ ∃ n, 0 < n ∧ n < t.activeLength ∧ t.chunk n = .ok t') := by
  rw [statusAfterContext_fresh hf]
  by_cases hfits : t.activeLength ≤ b.limit
  · rw [if_pos hfits]
    cases hcut : b.boundaryCut t t.activeLength .CE with
    | none =>
      refine ⟨_, t, rfl, ?_, .inl rfl⟩
      split
      · exact statusAtLimit_ne_exhausted
      · simp
    | some aligned =>
      obtain ⟨hpos, hlt⟩ := boundaryCut_some hcut
      obtain ⟨t', ht'⟩ := hc.toProper.exists_chunk hc.offset hpos hlt
      exact ⟨.available, t', by simp [ht'], by simp,
        .inr ⟨aligned, hpos, hlt, ht'⟩⟩
  · rw [if_neg hfits]
    have hlong : b.limit < t.activeLength := by omega
    cases hn : b.chunkSize t .CE with
    | none =>
      have := (chunkSize_eq_none_iff hf hlong).mp hn
      omega
    | some n =>
      have hpos := chunkSize_pos hf hn
      have hlt : n < t.activeLength := by
        have := chunkSize_le_limit hn
        omega
      obtain ⟨t', ht'⟩ := hc.toProper.exists_chunk hc.offset hpos hlt
      exact ⟨b.statusAtLimit, t', by simp [ht'], statusAtLimit_ne_exhausted, .inr ⟨n, hpos, hlt, ht'⟩⟩

theorem fresh_refuses (hno : ¬ (t.activeLength ≤ b.limit ∨
      (b.minChunkTokens ≤ b.limit ∧ 2 * b.minChunkTokens ≤ t.activeLength))) :
    b.statusAfterContext t .CE = .ok (.exhausted, t) := by
  rw [statusAfterContext_fresh hf, if_neg (by omega), (chunkSize_eq_none_iff hf (by omega)).mpr (by omega)]

theorem progress_iff (hc : CeContext t) : Progress b t ↔ t.activeLength ≤ b.limit ∨
      (b.minChunkTokens ≤ b.limit ∧ 2 * b.minChunkTokens ≤ t.activeLength) := by
  constructor
  · rintro ⟨status, t', h, hne, -⟩
    by_contra hno
    rw [fresh_refuses hf hno] at h
    cases h
    exact hne rfl
  · intro hok
    obtain ⟨status, t', h, hne, rfl | ⟨n, hpos, -, hn⟩⟩ := fresh_cases hf hc hok
    · exact ⟨status, t', h, hne, hc.active⟩
    · have := chunk_activeLength hn
      exact ⟨status, t', h, hne, by omega⟩

end

/-- A context at the head of the queue: nothing cut, and everything behind `processedLength` waits. -/
structure Waiting (t : TokenBuffer) : Prop where
  stop_eq : t.processingRange.stop = t.all.length
  start_lt : t.processingRange.start < t.all.length
  offset_eq : t.processingOffset = 0
  unchunked : t.activelyChunked = false

theorem Waiting.activeLength_eq (hw : Waiting t) : t.activeLength = (t.all.length : ℤ) - t.processedLength := by
  have := hw.start_lt
  simp only [activeLength, Range.length, processedLength, hw.stop_eq, hw.offset_eq]
  omega

theorem Waiting.ceContext (hw : Waiting t) : CeContext t := by
  have := hw.start_lt
  have hlen := hw.activeLength_eq
  refine ⟨⟨?_, ?_, ?_, ?_⟩, ?_, ?_⟩
  · rw [hw.stop_eq]; omega
  · rw [hw.stop_eq]
  · rw [hw.offset_eq]; omega
  · rw [hw.offset_eq, hw.stop_eq]; omega
  · rw [hw.offset_eq]
  · simp only [processedLength] at hlen
    omega

theorem waiting_initial {array : List ℤ} (hne : array ≠ []) : Waiting (.initial array) :=
  ⟨rfl, length_pos_iff.mpr hne, rfl, rfl⟩

theorem Waiting.active_eq (hw : Waiting t) : t.active = t.all.drop t.processedLength := by
  simp [active, hw.stop_eq, hw.offset_eq, processedLength]

/-- Encoding a cut window and advancing leaves a context that waits for exactly the rest. -/
theorem Waiting.advance (hw : Waiting t) {t' : TokenBuffer} {n : ℤ} (hpos : 0 < n)
    (hlt : n < t.activeLength) (hn : t.chunk n = .ok t') :
    t'.activelyChunked = true ∧ ∃ u, t'.advanceChunk = .ok u ∧ Waiting u ∧ u.activeLength < t.activeLength ∧
      t'.active ++ u.all.drop u.processedLength = t.all.drop t.processedLength := by
  obtain ⟨-, -, hle, hstop, heq⟩ := chunk_ok hn
  have hlen := hw.activeLength_eq
  rw [hw.stop_eq] at hstop
  generalize t'.processingRange.stop = stop at *
  subst heq
  refine ⟨rfl, _, by simp [advanceChunk, hw.offset_eq]; rfl, ?_, ?_, ?_⟩
  · exact ⟨rfl, by show stop < t.all.length; omega, rfl, rfl⟩
  · rw [hlen]
    simp only [activeLength, Range.length, Range.advance]
    omega
  · simp only [active, processedLength, Range.advance, hw.offset_eq, add_zero, Int.toNat_natCast]
    rw [← drop_take_append_drop t.all t.processingRange.start (stop - t.processingRange.start)]
    rw [show t.processingRange.start + (stop - t.processingRange.start) = stop by omega]
    rw [drop_take]

/-- With room for two pieces a waiting context is encoded to its end, every token once. -/
theorem encode_waiting (hf : Fresh b) (hroom : 2 * b.minChunkTokens ≤ b.limit + 1) :
    ∀ (fuel : ℕ) (t : TokenBuffer), Waiting t → t.activeLength ≤ fuel →
      encode b fuel t = some (t.all.drop t.processedLength)
  | 0, t, hw, hfuel => by
    have := hw.ceContext.active
    omega
  | fuel + 1, t, hw, hfuel => by
    have := hf.limit_pos
    have := hf.floor_nonneg
    obtain ⟨status, t', h, hne, hcase⟩ := fresh_cases hf hw.ceContext (by omega)
    rw [encode, h]
    rcases hcase with rfl | ⟨n, hpos, hlt, hn⟩
    · cases status <;> simp_all [hw.unchunked, hw.active_eq]
    · obtain ⟨hchunked, u, hu, hwu, hless, hspl⟩ := hw.advance hpos hlt hn
      have ih := encode_waiting hf hroom fuel u hwu (by omega)
      cases status with
      | exhausted => exact absurd rfl hne
      | available | reached => simp [hchunked, hu, ih, hspl]

theorem encode_refused (h : b.statusAfterContext t .CE = .ok (.exhausted, t)) (fuel : ℕ) : encode b fuel t = none := by
  induction fuel with
  | zero => rfl
  | succ fuel ih => rw [encode, h]; exact ih

namespace TokenGenerationSchedulerConfig
variable {cfg : TokenGenerationSchedulerConfig} (alignTokens : ℤ)

/-- The most one context can take in a step: the batch target under the per-request cap. -/
def chunkLimit (cfg : TokenGenerationSchedulerConfig) : ℤ :=
  if cfg.maxRequestInputTokens > 0 then
    min cfg.targetTokensPerBatchCe cfg.maxRequestInputTokens
  else cfg.targetTokensPerBatchCe

theorem limit_activeBudget (hchunk : cfg.enableChunkedPrefill = true) :
    (cfg.activeBudget alignTokens).limit = cfg.chunkLimit := by
  simp [limit, remaining, activeBudget, chunkLimit, hchunk]

theorem fresh_activeBudget (hok : cfg.postInit = .ok ()) (hchunk : cfg.enableChunkedPrefill = true) :
    Fresh (cfg.activeBudget alignTokens) := by
  obtain ⟨htgt, hmin, hcap⟩ := postInit_ok hok
  refine ⟨hchunk, by simp [activeBudget, RequestType.all], ?_, hmin⟩
  rw [limit_activeBudget alignTokens hchunk, chunkLimit]
  split <;> omega

end TokenGenerationSchedulerConfig

/-- A floor of 32 tokens a piece under a batch target of `target`. -/
def floorThirtyTwo (target : ℤ) : TokenGenerationSchedulerConfig :=
  { maxBatchSize := 1, targetTokensPerBatchCe := target, chunkedPrefillMinChunkSize := 32 }

theorem floorThirtyTwo_ok (target : ℤ) (h : 0 < target) : (floorThirtyTwo target).postInit = .ok () := by
  -- the guards first: once the numbers are put in, their decisions no longer match the lemma
  simp only [postInit, Schemes.bind_eq_ok, Schemes.raiseIf_eq_ok]
  refine ⟨(), ?_, (), ?_, (), ?_, (), ?_, (), ?_, (), rfl, (), ?_, (), ?_, (), ?_, (), ?_, ?_⟩ <;>
    simp [floorThirtyTwo]
  case refine_7 => norm_num
  all_goals omega

end MojoProse.Scheduler
