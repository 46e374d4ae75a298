import MojoProse.Pipelines.TokenBuffer
import Mathlib.Algebra.BigOperators.Group.List.Basic

/-! Token budgets of batch construction (`max/serve/scheduler/batch_constructor/token_budget.py`).

    A batch admits contexts one by one. `ActiveTokenBudget` bounds the tokens encoded in the step and may cut a
    context's window to fit; `TotalContextTokenBudget` bounds the page-aligned length of the contexts resident in the
    batch; a `TokenBudgetCollection` asks its budgets in order and stops at the first answer that is not `available`. -/

namespace MojoProse.Scheduler
open Pipelines

inductive RequestType where | TG | CE | MIXED | UNKNOWN
  deriving DecidableEq, Repr

/-- `RequestType.all()`. -/
def RequestType.all : List RequestType := [.TG, .CE, .MIXED]

/-- `BUDGET_AVAILABLE`, `BUDGET_EXHAUSTED`, `BUDGET_REACHED`. -/
inductive BudgetStatus where | available | exhausted | reached
  deriving DecidableEq, Repr

structure ActiveTokenBudget where
  capacity : ℤ
  allowChunking : Bool
  applicableTypes : List RequestType
  minChunkTokens : ℤ := 0
  alignTokens : ℤ := 0
  maxContextTokens : ℤ := 0
  used : ℤ := 0
  activeRequestType : RequestType := .UNKNOWN
  deriving DecidableEq, Repr

namespace ActiveTokenBudget
variable (b : ActiveTokenBudget)

def remaining : ℤ := b.capacity - b.used

/-- `boundary_cut`: a shorter cut that ends on a multiple of `align_tokens`, if there is one. -/
def boundaryCut (t : TokenBuffer) (cut : ℤ) (requestType : RequestType) : Option ℤ :=
  if b.alignTokens ≤ 0 ∨ requestType ≠ .CE then none
  else
    let stop : ℤ := t.processedLength + cut
    let alignedEnd := stop - stop % b.alignTokens
    if alignedEnd ≤ t.processedLength ∨ alignedEnd = stop then none
    else some (alignedEnd - t.processedLength)

/-- `limit`: what one context may take, the remaining budget under the per-context cap. -/
def limit : ℤ :=
  if b.maxContextTokens > 0 ∧ b.allowChunking then min b.remaining b.maxContextTokens
  else b.remaining

/-- The answer to a context that fills `limit`: the cap leaves the batch open, the budget does not. -/
def statusAtLimit : BudgetStatus := if b.limit ≥ b.remaining then .reached else .available

variable (t : TokenBuffer) (requestType : RequestType)

/-- Where a context longer than `limit` is cut; `none` when the floor leaves no legal cut. -/
def chunkSize : Option ℤ :=
  let chunk :=
    if b.minChunkTokens > 0 ∧ t.activeLength - b.limit < b.minChunkTokens then
      t.activeLength - b.minChunkTokens
    else b.limit
  if b.minChunkTokens > 0 ∧ chunk < b.minChunkTokens then none
  else
    match b.boundaryCut t chunk requestType with
    | some aligned => if aligned ≥ b.minChunkTokens then some aligned else some chunk
    | none => some chunk

/-- `status_after_context`, with the context as it leaves it. -/
def statusAfterContext : Except String (BudgetStatus × TokenBuffer) :=
  if b.activeRequestType ∉ b.applicableTypes ∧ requestType ∉ b.applicableTypes then
    .ok (.available, t)
  else if b.remaining ≤ 0 then .ok (.exhausted, t)
  else if t.activeLength ≤ b.limit then
    match b.boundaryCut t t.activeLength requestType with
    | some aligned => do
      -- outside the `try`: this cut may raise into the caller
      let t ← t.chunk aligned
      return (.available, t)
    | none => .ok (if t.activeLength = b.limit then b.statusAtLimit else .available, t)
  else if b.allowChunking = false then .ok (.reached, t)
  else
    match b.chunkSize t requestType with
    | none => .ok (.exhausted, t)
    | some n =>
      match t.chunk n with
      | .ok t => .ok (b.statusAtLimit, t)
      | .error _ => .ok (.exhausted, t)

def addToBudget : ActiveTokenBudget :=
  { b with
    activeRequestType :=
      if b.activeRequestType ≠ .MIXED ∧ requestType ≠ b.activeRequestType then requestType
      else b.activeRequestType
    used := b.used + t.activeLength }

variable {b} {t t' : TokenBuffer} {requestType : RequestType} {status : BudgetStatus}

theorem limit_le_remaining : b.limit ≤ b.remaining := by
  unfold limit
  split
  · exact min_le_left _ _
  · exact le_rfl

theorem boundaryCut_some {cut aligned : ℤ} (h : b.boundaryCut t cut requestType = some aligned) :
    0 < aligned ∧ aligned < cut := by
  unfold boundaryCut at h
  split_ifs at h with hoff
  have halign : 0 < b.alignTokens := by
    by_contra hneg
    exact hoff (Or.inl (by omega))
  simp only [Option.ite_none_left_eq_some, Option.some.injEq] at h
  have := Int.emod_nonneg (t.processedLength + cut) halign.ne'
  omega

theorem chunkSize_spec {n : ℤ} (h : b.chunkSize t requestType = some n) : n ≤ b.limit ∧
    (0 < b.minChunkTokens → b.minChunkTokens ≤ n ∧ n ≤ t.activeLength - b.minChunkTokens) ∧
      (b.minChunkTokens ≤ 0 → 0 < b.limit → 0 < n) := by
  unfold chunkSize at h
  simp only at h
  split_ifs at h with hmove hsmall hsmall
  all_goals
    split at h
    · rename_i aligned halign
      have := boundaryCut_some halign
      split_ifs at h <;> simp only [Option.some.injEq] at h <;> omega
    · simp only [Option.some.injEq] at h
      omega

theorem chunkSize_le_limit {n : ℤ} (h : b.chunkSize t requestType = some n) : n ≤ b.limit := (chunkSize_spec h).1

section Answer

variable (b t requestType)

/-- It does not apply, refuses, fits as it is or may not be cut, fits and is cut to a boundary, or is cut to `limit`. -/
inductive Answer : BudgetStatus → TokenBuffer → Prop
  | skipped (h : requestType ∉ b.applicableTypes) : Answer .available t
  | refused : Answer .exhausted t
  | whole {status : BudgetStatus} (h : t.activeLength ≤ b.limit) (hne : status ≠ .exhausted) : Answer status t
  | uncut (h : b.allowChunking = false) : Answer .reached t
  | aligned {n : ℤ} {t' : TokenBuffer}
      (happlies : b.activeRequestType ∈ b.applicableTypes ∨ requestType ∈ b.applicableTypes)
      (hopen : 0 < b.remaining) (hfits : t.activeLength ≤ b.limit)
      (hcut : b.boundaryCut t t.activeLength requestType = some n) (hn : t.chunk n = .ok t') : Answer .available t'
  | chunked {n : ℤ} {t' : TokenBuffer} (hlong : b.limit < t.activeLength)
      (hcut : b.chunkSize t requestType = some n) (hn : t.chunk n = .ok t') : Answer b.statusAtLimit t'

end Answer

theorem statusAtLimit_ne_exhausted : b.statusAtLimit ≠ .exhausted := by
  unfold statusAtLimit
  split <;> simp

theorem Answer.of_statusAfterContext (h : b.statusAfterContext t requestType = .ok (status, t')) :
    Answer b t requestType status t' := by
  unfold statusAfterContext at h
  split at h
  next hskip =>
    cases h
    exact .skipped hskip.2
  next happlies =>
  split at h
  next =>
    cases h
    exact .refused
  next hopen =>
  split at h
  next hfits =>
    split at h
    next aligned hcut =>
      obtain ⟨u, hu, h⟩ := Schemes.bind_eq_ok.mp h
      cases h
      exact .aligned (by tauto) (by omega) hfits hcut hu
    next =>
      cases h
      refine .whole hfits ?_
      split_ifs
      · exact statusAtLimit_ne_exhausted
      · simp
  next hlong =>
  split at h
  next hchunk =>
    cases h
    exact .uncut hchunk
  next =>
  split at h
  next =>
    cases h
    exact .refused
  next n hn =>
    split at h
    next u hu =>
      cases h
      exact .chunked (by omega) hn hu
    next =>
      cases h
      exact .refused

variable (hchunk : b.allowChunking = true)
include hchunk

/-- With chunking on the window stays as it is, or it is cut to at most `limit`. -/
theorem statusAfterContext_cases (h : b.statusAfterContext t requestType = .ok (status, t')) :
    (requestType ∉ b.applicableTypes ∧ t' = t) ∨ (status = .exhausted ∧ t' = t) ∨
      (t.activeLength ≤ b.limit ∧ t' = t) ∨ ∃ n ≤ b.limit, t.chunk n = .ok t' := by
  cases Answer.of_statusAfterContext h with
  | skipped hskip => exact .inl ⟨hskip, rfl⟩
  | refused => exact .inr (.inl ⟨rfl, rfl⟩)
  | whole hfits => exact .inr (.inr (.inl ⟨hfits, rfl⟩))
  | uncut hoff => exact absurd (hchunk.symm.trans hoff) (by simp)
  | @aligned n _ _ _ hfits hcut hn =>
    exact .inr (.inr (.inr ⟨n, ((boundaryCut_some hcut).2.trans_le hfits).le, hn⟩))
  | chunked _ hcut hn => exact .inr (.inr (.inr ⟨_, chunkSize_le_limit hcut, hn⟩))

theorem statusAfterContext_all (h : b.statusAfterContext t requestType = .ok (status, t')) : t'.all = t.all := by
  obtain ⟨-, rfl⟩ | ⟨-, rfl⟩ | ⟨-, rfl⟩ | ⟨n, -, hn⟩ := statusAfterContext_cases hchunk h
  · rfl
  · rfl
  · rfl
  · exact TokenBuffer.chunk_all hn

theorem statusAfterContext_proper (hp : t.Proper)
    (h : b.statusAfterContext t requestType = .ok (status, t')) : t'.Proper := by
  obtain ⟨-, rfl⟩ | ⟨-, rfl⟩ | ⟨-, rfl⟩ | ⟨n, -, hn⟩ := statusAfterContext_cases hchunk h
  · exact hp
  · exact hp
  · exact hp
  · exact hp.chunk hn

theorem activeLength_le_remaining (hin : requestType ∈ b.applicableTypes) (hne : status ≠ .exhausted)
    (h : b.statusAfterContext t requestType = .ok (status, t')) : t'.activeLength ≤ b.remaining := by
  have hlim := limit_le_remaining (b := b)
  obtain ⟨hout, -⟩ | ⟨hex, -⟩ | ⟨hfits, rfl⟩ | ⟨n, hle, hn⟩ := statusAfterContext_cases hchunk h
  · exact absurd hin hout
  · exact absurd hex hne
  · exact hfits.trans hlim
  · exact (TokenBuffer.chunk_activeLength hn).trans_le (hle.trans hlim)

end ActiveTokenBudget

/-- `costAlignment` is the KV page size. `allow_chunking` is stored by the source and never read. -/
structure TotalContextTokenBudget where
  capacity : ℤ
  applicableTypes : List RequestType
  costAlignment : ℤ := 1
  used : ℤ := 0
  costAlignment_pos : 0 < costAlignment := by decide
  deriving DecidableEq, Repr

/-- `align_up`: the next multiple of `align`. -/
def alignUp (x align : ℤ) : ℤ := (x + align - 1) / align * align

namespace TotalContextTokenBudget
variable (b : TotalContextTokenBudget)

def remaining : ℤ := b.capacity - b.used

/-- The page-aligned length a context is charged. -/
def cost (t : TokenBuffer) : ℤ := alignUp t.all.length b.costAlignment

def statusAfterContext (t : TokenBuffer) (requestType : RequestType) : BudgetStatus :=
  if requestType ∉ b.applicableTypes then .available
  else if b.remaining ≤ 0 then .exhausted
  else if b.cost t < b.remaining then .available
  else if b.cost t = b.remaining then .reached
  else .exhausted

/-- `add_to_budget`: charged whatever the request type is. -/
def addToBudget (t : TokenBuffer) : TotalContextTokenBudget := { b with used := b.used + b.cost t }

variable {b} {t : TokenBuffer} {requestType : RequestType}

theorem cost_nonneg : 0 ≤ b.cost t := by
  have hpos := b.costAlignment_pos
  exact mul_nonneg (Int.ediv_nonneg (by omega) hpos.le) hpos.le

theorem cost_le_remaining (hin : requestType ∈ b.applicableTypes)
    (h : b.statusAfterContext t requestType ≠ .exhausted) : b.cost t ≤ b.remaining := by
  unfold statusAfterContext at h
  split_ifs at h <;> first | contradiction | omega

end TotalContextTokenBudget

inductive TokenBudget where
  | active (b : ActiveTokenBudget)
  | total (b : TotalContextTokenBudget)

namespace TokenBudget

def remaining : TokenBudget → ℤ
  | .active b => b.remaining
  | .total b => b.remaining

def statusAfterContext (t : TokenBuffer) (requestType : RequestType) :
    TokenBudget → Except String (BudgetStatus × TokenBuffer)
  | .active b => b.statusAfterContext t requestType
  | .total b => .ok (b.statusAfterContext t requestType, t)

def addToBudget (t : TokenBuffer) (requestType : RequestType) : TokenBudget → TokenBudget
  | .active b => .active (b.addToBudget t requestType)
  | .total b => .total (b.addToBudget t)

end TokenBudget

namespace TokenBudgetCollection

/-- The least `remaining` of the budgets. -/
def remaining : List TokenBudget → Except String ℤ
  | [] => .error "remaining cannot be calculated without any token_budgets"
  | b :: bs => .ok (bs.foldl (fun m b => min m b.remaining) b.remaining)

/-- The first answer other than `available` decides; later budgets are not asked. -/
def statusAfterContext (t : TokenBuffer) (requestType : RequestType) :
    List TokenBudget → Except String (BudgetStatus × TokenBuffer)
  | [] => .ok (.available, t)
  | b :: bs => do
    let (status, t) ← b.statusAfterContext t requestType
    if status ≠ .available then return (status, t) else statusAfterContext t requestType bs

def addToBudget (t : TokenBuffer) (requestType : RequestType) (bs : List TokenBudget) : List TokenBudget :=
  bs.map (TokenBudget.addToBudget t requestType)

/-- The pair the batch constructor builds: the total budget is asked only when the active budget answers `available`. -/
theorem statusAfterContext_pair (a : ActiveTokenBudget) (b : TotalContextTokenBudget)
    (t : TokenBuffer) (requestType : RequestType) :
    statusAfterContext t requestType [.active a, .total b] =
      match a.statusAfterContext t requestType with
      | .error e => .error e
      | .ok (.available, t) => .ok (b.statusAfterContext t requestType, t)
      | .ok (status, t) => .ok (status, t) := by
  simp only [statusAfterContext, TokenBudget.statusAfterContext]
  rcases a.statusAfterContext t requestType with e | ⟨status, t'⟩
  · rfl
  · cases status <;> cases hb : b.statusAfterContext t' requestType <;> simp [hb]

end TokenBudgetCollection

end MojoProse.Scheduler
