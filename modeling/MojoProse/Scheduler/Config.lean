import MojoProse.Schemes.Guard
import MojoProse.Scheduler.TokenBudget
import Mathlib.Data.Rat.Defs
import Mathlib.Algebra.Order.Ring.Unbundled.Rat

/-! `TokenGenerationSchedulerConfig` (`max/serve/scheduler/config.py`): the fields `__post_init__`
    checks, its checks in order, and the budgets a batch is created with. -/

namespace MojoProse.Scheduler
open Schemes

structure TokenGenerationSchedulerConfig where
  maxBatchSize : ℤ
  targetTokensPerBatchCe : ℤ
  maxSeqLen : Option ℤ := none
  maxBatchTotalTokens : Option ℤ := none
  enableChunkedPrefill : Bool := true
  chunkedPrefillMinChunkSize : ℤ := 0
  maxRequestInputTokens : ℤ := 0
  prefillCoalesceMinPending : ℤ := 0
  prefillCoalesceMaxHeldSteps : ℤ := 0
  prefillScheduleInterval : ℤ := 1
  dpCeBalanceThreshold : ℚ := 4 / 5

namespace TokenGenerationSchedulerConfig
variable (cfg : TokenGenerationSchedulerConfig)

/-- The total budget has to hold one sequence of full length, when both are set. -/
def checkTotalTokens : Except String Unit :=
  match cfg.maxBatchTotalTokens, cfg.maxSeqLen with
  | some total, some len =>
    if total < len then
      .error s!"`max_batch_total_tokens` must be greater than or equal to `max_seq_len`, found {total} < {len}"
    else .ok ()
  | _, _ => .ok ()

def postInit : Except String Unit := do
  raiseIf (cfg.maxBatchSize ≤ 0)
    s!"`max_batch_size` must be greater than 0, found {cfg.maxBatchSize}"
  raiseIf (cfg.targetTokensPerBatchCe ≤ 0)
    s!"`target_tokens_per_batch_ce` must be greater than 0, found {cfg.targetTokensPerBatchCe}"
  raiseIf (cfg.chunkedPrefillMinChunkSize < 0)
    s!"`chunked_prefill_min_chunk_size` must be non-negative, found {cfg.chunkedPrefillMinChunkSize}"
  raiseIf (cfg.maxRequestInputTokens < 0)
    s!"`max_request_input_tokens` must be non-negative, found {cfg.maxRequestInputTokens}"
  raiseIf (cfg.maxRequestInputTokens > 0 ∧ cfg.chunkedPrefillMinChunkSize > cfg.maxRequestInputTokens)
    s!"`chunked_prefill_min_chunk_size` must not exceed `max_request_input_tokens`, found {cfg.chunkedPrefillMinChunkSize} > {cfg.maxRequestInputTokens}"
  cfg.checkTotalTokens
  raiseIf (cfg.maxBatchSize > cfg.targetTokensPerBatchCe)
    s!"`max_batch_size` must be less than or equal to `target_tokens_per_batch_ce`, found {cfg.maxBatchSize} > {cfg.targetTokensPerBatchCe}"
  raiseIf (¬ (0 ≤ cfg.dpCeBalanceThreshold ∧ cfg.dpCeBalanceThreshold ≤ 1))
    s!"`dp_ce_balance_threshold` must be in [0, 1], found {cfg.dpCeBalanceThreshold}"
  raiseIf (cfg.prefillCoalesceMinPending < 0)
    s!"`prefill_coalesce_min_pending` must be non-negative, found {cfg.prefillCoalesceMinPending}"
  raiseIf (cfg.prefillCoalesceMaxHeldSteps < 0)
    s!"`prefill_coalesce_max_held_steps` must be non-negative, found {cfg.prefillCoalesceMaxHeldSteps}"
  raiseIf (cfg.prefillScheduleInterval < 1)
    s!"`prefill_schedule_interval` must be at least 1, found {cfg.prefillScheduleInterval}"

/-- The active budget of `_create_new_token_budget`; `alignTokens` is the KV cache's `chunk_alignment_tokens`. -/
def activeBudget (alignTokens : ℤ) (ceCapacity : Option ℤ := none) : ActiveTokenBudget where
  capacity := ceCapacity.getD cfg.targetTokensPerBatchCe
  allowChunking := cfg.enableChunkedPrefill
  applicableTypes := RequestType.all
  minChunkTokens := cfg.chunkedPrefillMinChunkSize
  alignTokens := alignTokens
  maxContextTokens := cfg.maxRequestInputTokens

/-- `_create_new_token_budget`, over a KV cache with pages of `pageSize` tokens. -/
def createNewTokenBudget (alignTokens pageSize : ℤ) (hpage : 0 < pageSize)
    (ceCapacity : Option ℤ := none) : List TokenBudget :=
  .active (cfg.activeBudget alignTokens ceCapacity) ::
    match cfg.maxBatchTotalTokens with
    | some capacity =>
      [.total
        { capacity := capacity
          applicableTypes := [.CE, .MIXED]
          costAlignment := pageSize
          costAlignment_pos := hpage }]
    | none => []

theorem postInit_ok {cfg : TokenGenerationSchedulerConfig} (h : cfg.postInit = .ok ()) :
    0 < cfg.targetTokensPerBatchCe ∧ 0 ≤ cfg.chunkedPrefillMinChunkSize ∧ 0 ≤ cfg.maxRequestInputTokens := by
  simp only [postInit, bind_eq_ok, raiseIf_eq_ok] at h
  exact ⟨by omega, by omega, by omega⟩

end TokenGenerationSchedulerConfig

end MojoProse.Scheduler
