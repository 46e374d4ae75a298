import MojoProse.Scheduler.TokenBudget

/-! What a cut and a refusal leave of a context.

    A context that is longer than `limit` is cut under the floor on the size of a piece. One that fits is cut to a
    boundary without it, and a budget that cuts may be followed by one that refuses. -/

namespace MojoProse.Scheduler
open Pipelines TokenBuffer List ActiveTokenBudget

section Floor

variable (b : ActiveTokenBudget) (t : TokenBuffer) (requestType : RequestType)

/-- Both pieces of a context that is split have at least `min_chunk_tokens` tokens. -/
def KeepsFloor : Prop :=
  ∀ status t', b.statusAfterContext t requestType = .ok (status, t') → t'.activeLength < t.activeLength →
    b.minChunkTokens ≤ t'.activeLength ∧ b.minChunkTokens ≤ t.activeLength - t'.activeLength

/-- **The floor on a piece**: it is kept exactly when the cut of a context that fits, if there is one, leaves two
    pieces of that size. -/
theorem keepsFloor_iff (hfloor : 0 < b.minChunkTokens) : KeepsFloor b t requestType ↔ ∀ n t',
      b.activeRequestType ∈ b.applicableTypes ∨ requestType ∈ b.applicableTypes → 0 < b.remaining →
      t.activeLength ≤ b.limit → b.boundaryCut t t.activeLength requestType = some n → t.chunk n = .ok t' →
        b.minChunkTokens ≤ n ∧ b.minChunkTokens ≤ t.activeLength - n := by
  constructor
  · intro hkeeps n t' happlies hopen hfits hcut hn
    have hok : b.statusAfterContext t requestType = .ok (.available, t') := by
      unfold statusAfterContext
      rw [if_neg (by tauto), if_neg (by omega), if_pos hfits, hcut]
      simp [hn]
    rw [← chunk_activeLength hn]
    refine hkeeps _ t' hok ?_
    rw [chunk_activeLength hn]
    exact (boundaryCut_some hcut).2
  · intro hcuts status t' hok hlt
    cases ActiveTokenBudget.Answer.of_statusAfterContext hok with
    | skipped | refused | whole | uncut => exact absurd hlt (lt_irrefl _)
    | aligned happlies hopen hfits hcut hn =>
      rw [chunk_activeLength hn]
      exact hcuts _ t' happlies hopen hfits hcut hn
    | chunked _ hcut hn =>
      rw [chunk_activeLength hn]
      have := (chunkSize_spec hcut).2.1 hfloor
      omega

end Floor

def alignedBudget : ActiveTokenBudget :=
  { capacity := 100, allowChunking := true, applicableTypes := RequestType.all, minChunkTokens := 2, alignTokens := 4 }

theorem keepsFloor_eight : KeepsFloor alignedBudget (.initial (replicate 8 0)) .CE := by
  refine (keepsFloor_iff alignedBudget _ .CE (by decide)).mpr fun n t' _ _ _ hcut _ => ?_
  have hnone : alignedBudget.boundaryCut (.initial (replicate 8 0)) (activeLength
    (.initial (replicate 8 0))) .CE = none := by decide
  cases hcut

/-- Five tokens are cut into four and one. -/
theorem five_tokens_split : ∃ t', alignedBudget.statusAfterContext (.initial (replicate 5 0)) .CE =
    .ok (.available, t') ∧ t'.activeLength = 4 ∧ ¬KeepsFloor alignedBudget (.initial (replicate 5 0)) .CE := by
  refine ⟨_, rfl, by decide, fun h => ?_⟩
  have := (h _ _ rfl (by decide)).2
  exact absurd this (by decide)

namespace TokenBudgetCollection

variable {t t' : TokenBuffer} {requestType : RequestType}

theorem eq_of_exhausted {b : TokenBudget} (h : b.statusAfterContext t requestType = .ok (.exhausted, t')) : t' = t := by
  cases b with
  | total b => exact (Prod.mk.inj (Except.ok.inj h)).2.symm
  | active b =>
    generalize hstatus : BudgetStatus.exhausted = status at h
    cases ActiveTokenBudget.Answer.of_statusAfterContext h with
    | skipped | refused | whole | uncut => rfl
    | aligned => cases hstatus
    | chunked => exact absurd hstatus.symm statusAtLimit_ne_exhausted

theorem statusAfterContext_append {rest : List TokenBudget} : ∀ {front : List TokenBudget} {t : TokenBuffer},
    statusAfterContext t requestType front = .ok (.available, t') →
      statusAfterContext t requestType (front ++ rest) = statusAfterContext t' requestType rest
  | [], t, h => by
    cases h
    rfl
  | b :: front, t, h => by
    rw [statusAfterContext] at h
    rw [cons_append, statusAfterContext]
    generalize b.statusAfterContext t requestType = answer at h ⊢
    rcases answer with e | ⟨status, u⟩
    · cases h
    · cases status with
      | available => exact statusAfterContext_append h
      | exhausted | reached => cases h

theorem exists_refusing : ∀ {bs : List TokenBudget} {t : TokenBuffer},
    statusAfterContext t requestType bs = .ok (.exhausted, t') → ∃ front b rest, bs = front ++ b :: rest ∧
      statusAfterContext t requestType front = .ok (.available, t') ∧
        b.statusAfterContext t' requestType = .ok (.exhausted, t')
  | [], t, h => by cases h
  | b :: bs, t, h => by
    rw [statusAfterContext] at h
    rcases hb : b.statusAfterContext t requestType with e | ⟨status, u⟩
    · rw [hb] at h
      cases h
    rw [hb] at h
    cases status with
    | reached => cases h
    | exhausted =>
      cases h
      obtain rfl := eq_of_exhausted hb
      exact ⟨[], b, bs, rfl, rfl, hb⟩
    | available =>
      obtain ⟨front, b', rest, rfl, hfront, hb'⟩ := exists_refusing h
      refine ⟨b :: front, b', rest, rfl, ?_, hb'⟩
      rw [statusAfterContext, hb]
      exact hfront

def SameWindow (t t' : TokenBuffer) : Prop :=
  t'.processingRange = t.processingRange ∧ t'.processingOffset = t.processingOffset ∧
    t'.activelyChunked = t.activelyChunked

end TokenBudgetCollection

end MojoProse.Scheduler
