import MojoProse.Scheduler.TokenBudget

/-! Whether the budgets of a batch are hard limits.

    Contexts are offered one by one to `[ActiveTokenBudget, TotalContextTokenBudget]`. A context is
    admitted unless the collection answers `exhausted`, and the batch closes at `reached`. The active
    budget never overruns; the total budget does, exactly when the active budget answers `reached`
    to a context whose aligned length no longer fits, because the total budget is then not asked. -/

namespace MojoProse.Scheduler
open Pipelines TotalContextTokenBudget List

structure Offer where
  context : TokenBuffer
  requestType : RequestType

/-- A batch under construction: its budgets and the contexts admitted, newest first. -/
structure Batch where
  budgets : List TokenBudget
  admitted : List Offer
  isOpen : Bool

namespace Batch

/-- A new batch over the two budgets, with chunking on and nothing used. -/
def start (a : ActiveTokenBudget) (b : TotalContextTokenBudget) : Batch where
  budgets :=
    [.active { a with allowChunking := true, used := 0, activeRequestType := .UNKNOWN },
     .total { b with used := 0 }]
  admitted := []
  isOpen := true

/-- Offer one context. A `ValueError` of the budget leaves the loop with nothing admitted. -/
def offer (s : Batch) (o : Offer) : Batch :=
  if s.isOpen = false then s
  else
    match TokenBudgetCollection.statusAfterContext o.context o.requestType s.budgets with
    | .error _ => { s with isOpen := false }
    | .ok (.exhausted, _) => s
    | .ok (status, t) =>
      { budgets := TokenBudgetCollection.addToBudget t o.requestType s.budgets
        admitted := ⟨t, o.requestType⟩ :: s.admitted
        isOpen := status ≠ .reached }

def run (a : ActiveTokenBudget) (b : TotalContextTokenBudget) (offers : List Offer) : Batch :=
  offers.foldl offer (start a b)

end Batch

def ceContexts (l : List Offer) : List Offer := l.filter (·.requestType = .CE)

def ceCost (cost : TokenBuffer → ℤ) (l : List Offer) : ℤ :=
  ((ceContexts l).map fun o => cost o.context).sum

/-- The admitted CE contexts stay within a budget that applies to CE. -/
def Within (types : List RequestType) (capacity : ℤ) (cost : TokenBuffer → ℤ) (l : List Offer) : Prop :=
  .CE ∈ types → ceContexts l ≠ [] → ceCost cost l ≤ capacity

/-- Both budgets are hard limits for the CE contexts of the batch. -/
structure HardLimits (a : ActiveTokenBudget) (b : TotalContextTokenBudget) (s : Batch) : Prop where
  active : Within a.applicableTypes a.capacity TokenBuffer.activeLength s.admitted
  total : Within b.applicableTypes b.capacity b.cost s.admitted

/-- The active budget answers `reached` to a CE context whose aligned length takes the total budget over its capacity.
    -/
def HiddenOverrun (b : TotalContextTokenBudget) (s : Batch) (o : Offer) : Prop :=
  s.isOpen = true ∧ o.requestType = .CE ∧ .CE ∈ b.applicableTypes ∧
    (∃ a t, TokenBudget.active a ∈ s.budgets ∧
      a.statusAfterContext o.context .CE = .ok (.reached, t)) ∧
    b.capacity < ceCost b.cost s.admitted + b.cost o.context

variable {a : ActiveTokenBudget} {b : TotalContextTokenBudget} {s : Batch} {o : Offer}

variable {t : TokenBuffer} {cost : TokenBuffer → ℤ} {l : List Offer}

theorem ceCost_cons_CE : ceCost cost (⟨t, .CE⟩ :: l) = ceCost cost l + cost t := by
  simp [ceCost, ceContexts, add_comm]

variable {ty : RequestType}

theorem ceContexts_cons_other (h : ty ≠ .CE) : ceContexts (⟨t, ty⟩ :: l) = ceContexts l := by
  simp [ceContexts, h]

theorem Within.cons_other {types : List RequestType} {capacity : ℤ} (hw : Within types capacity cost l)
    (h : ty ≠ .CE) : Within types capacity cost (⟨t, ty⟩ :: l) := by
  unfold Within ceCost
  rw [ceContexts_cons_other h]
  exact hw

theorem ceCost_cons_le {used : ℤ} (hcost : 0 ≤ cost t) (hle : ceCost cost l ≤ used) :
    ceCost cost (⟨t, ty⟩ :: l) ≤ used + cost t := by
  by_cases h : ty = .CE
  · subst h
    rw [ceCost_cons_CE]
    omega
  · unfold ceCost at *
    rw [ceContexts_cons_other h]
    omega

/-- The budgets of a batch are the two it started with, and have been charged at least what its CE contexts cost. -/
structure Tracks (a : ActiveTokenBudget) (b : TotalContextTokenBudget) (s : Batch)
    (a' : ActiveTokenBudget) (b' : TotalContextTokenBudget) : Prop where
  budgets : s.budgets = [.active a', .total b']
  chunking : a'.allowChunking = true
  activeCapacity : a'.capacity = a.capacity
  activeTypes : a'.applicableTypes = a.applicableTypes
  totalCapacity : b'.capacity = b.capacity
  totalTypes : b'.applicableTypes = b.applicableTypes
  alignment : b'.costAlignment = b.costAlignment
  activeUsed : ceCost TokenBuffer.activeLength s.admitted ≤ a'.used
  totalUsed : ceCost b.cost s.admitted ≤ b'.used

theorem Tracks.cost_eq {a' : ActiveTokenBudget} {b' : TotalContextTokenBudget}
    (h : Tracks a b s a' b') (t : TokenBuffer) : b'.cost t = b.cost t := by
  rw [cost, cost, h.alignment]

theorem tracks_start : ∃ a' b', Tracks a b (Batch.start a b) a' b' :=
  ⟨_, _, rfl, rfl, rfl, rfl, rfl, rfl, rfl, le_rfl, le_rfl⟩

section Step
variable {a' : ActiveTokenBudget} {b' : TotalContextTokenBudget}

variable (h : Tracks a b s a' b')
include h

/-- An offer changes nothing, or admits a context that the active budget, and the total one if asked, did not refuse. -/
theorem offer_cases (o : Offer) :
    ((s.offer o).budgets = s.budgets ∧ (s.offer o).admitted = s.admitted) ∨ ∃ status t, s.isOpen = true ∧
      a'.statusAfterContext o.context o.requestType = .ok (status, t) ∧ status ≠ .exhausted ∧
      (status = .available → b'.statusAfterContext t o.requestType ≠ .exhausted) ∧ (s.offer o).budgets =
        [.active (a'.addToBudget t o.requestType), .total (b'.addToBudget t)] ∧
      (s.offer o).admitted = ⟨t, o.requestType⟩ :: s.admitted := by
  unfold Batch.offer
  by_cases hopen : s.isOpen = false
  · rw [if_pos hopen]
    exact .inl ⟨rfl, rfl⟩
  rw [if_neg hopen, h.budgets, TokenBudgetCollection.statusAfterContext_pair]
  have hopen' : s.isOpen = true := by simpa using hopen
  rcases hst : a'.statusAfterContext o.context o.requestType with e | ⟨status, t⟩
  · exact .inl ⟨rfl, rfl⟩
  · cases status with
    | exhausted => exact .inl ⟨h.budgets, rfl⟩
    | reached => exact .inr ⟨.reached, t, hopen', rfl, by simp, by simp, rfl, rfl⟩
    | available =>
      cases htot : b'.statusAfterContext t o.requestType with
      | exhausted =>
        simp only [htot]
        exact .inl ⟨h.budgets, trivial⟩
      | available | reached =>
        simp only [htot]
        exact .inr ⟨.available, t, hopen', rfl, by simp, by simp [htot], rfl, rfl⟩

theorem offer_of_reached (hopen : s.isOpen = true)
    (hr : a'.statusAfterContext o.context o.requestType = .ok (.reached, t)) :
    (s.offer o).admitted = ⟨t, o.requestType⟩ :: s.admitted := by
  unfold Batch.offer
  rw [if_neg (by simp [hopen]), h.budgets, TokenBudgetCollection.statusAfterContext_pair, hr]

theorem tracks_offer (hp : o.context.Proper) : ∃ a1 b1, Tracks a b (s.offer o) a1 b1 := by
  obtain ⟨hb, had⟩ | ⟨status, t, -, hst, -, -, hb, had⟩ := offer_cases h o
  · exact ⟨a', b', hb.trans h.budgets, h.chunking, h.activeCapacity, h.activeTypes,
      h.totalCapacity, h.totalTypes, h.alignment, had ▸ h.activeUsed, had ▸ h.totalUsed⟩
  · have hlen := (ActiveTokenBudget.statusAfterContext_proper h.chunking hp hst).activeLength_nonneg
    refine ⟨_, _, hb, h.chunking, h.activeCapacity, h.activeTypes, h.totalCapacity, h.totalTypes, h.alignment, ?_, ?_⟩
    · rw [had]
      exact ceCost_cons_le hlen h.activeUsed
    · rw [had]
      show _ ≤ b'.used + b'.cost t
      rw [h.cost_eq]
      exact ceCost_cons_le cost_nonneg h.totalUsed

/-- One offer keeps both limits unless it is a hidden overrun. -/
theorem hardLimits_offer (hl : HardLimits a b s) : HardLimits a b (s.offer o) ↔ ¬ HiddenOverrun b s o := by
  constructor
  · rintro hl' ⟨hopen, hce, hin, ⟨a1, t, hmem, hr⟩, hover⟩
    obtain rfl : a1 = a' := by simpa [h.budgets] using hmem
    have had := offer_of_reached h hopen (hce ▸ hr)
    have hcost : b.cost t = b.cost o.context := by
      rw [cost, ActiveTokenBudget.statusAfterContext_all h.chunking hr]
      rfl
    have hle := hl'.total hin (by simp [had, hce, ceContexts])
    rw [had, hce, ceCost_cons_CE, hcost] at hle
    omega
  · intro hno
    obtain ⟨-, had⟩ | ⟨status, t, hopen, hst, hne, htot, -, had⟩ := offer_cases h o
    · exact ⟨had ▸ hl.active, had ▸ hl.total⟩
    by_cases hce : o.requestType = .CE
    · rw [hce] at hst htot had
      refine ⟨fun hin _ => ?_, fun hin _ => ?_⟩
      · have hfit := ActiveTokenBudget.activeLength_le_remaining h.chunking (h.activeTypes ▸ hin) hne hst
        have := h.activeUsed
        rw [ActiveTokenBudget.remaining, h.activeCapacity] at hfit
        rw [had, ceCost_cons_CE]
        omega
      · rw [had, ceCost_cons_CE]
        have hall := ActiveTokenBudget.statusAfterContext_all h.chunking hst
        cases status with
        | exhausted => exact absurd rfl hne
        | available =>
          have hfit := cost_le_remaining (h.totalTypes ▸ hin) (htot rfl)
          have := h.totalUsed
          rw [h.cost_eq, remaining, h.totalCapacity] at hfit
          omega
        | reached =>
          -- the total budget was not asked: only the hypothesis bounds the cost
          by_contra hover
          refine hno ⟨hopen, hce, hin, ⟨a', t, by simp [h.budgets], hst⟩, ?_⟩
          have hcost : b.cost o.context = b.cost t := by
            rw [cost, cost, hall]
          omega
    · exact ⟨had ▸ hl.active.cons_other hce, had ▸ hl.total.cons_other hce⟩

end Step

theorem run_take_succ {offers : List Offer} {k : ℕ} (h : offers[k]? = some o) :
    Batch.run a b (offers.take (k + 1)) = (Batch.run a b (offers.take k)).offer o := by
  simp [Batch.run, take_add_one, h]

theorem tracks_run {offers : List Offer} (hp : ∀ o ∈ offers, o.context.Proper) (k : ℕ) :
    ∃ a' b', Tracks a b (Batch.run a b (offers.take k)) a' b' := by
  induction k with
  | zero => exact tracks_start
  | succ k ih =>
    cases hk : offers[k]? with
    | none => simpa [take_add_one, hk] using ih
    | some o =>
      obtain ⟨a', b', h⟩ := ih
      rw [run_take_succ hk]
      exact tracks_offer h (hp o (mem_of_getElem? hk))

/-- Both budgets are hard limits after every offer exactly when no offer of the run is a hidden
    overrun of the total budget. -/
theorem hardLimits_run_iff (a : ActiveTokenBudget) (b : TotalContextTokenBudget)
    (offers : List Offer) (hp : ∀ o ∈ offers, o.context.Proper) :
    (∀ k, HardLimits a b (Batch.run a b (offers.take k))) ↔
      ∀ k o, offers[k]? = some o → ¬ HiddenOverrun b (Batch.run a b (offers.take k)) o := by
  constructor
  · intro hl k o hk
    obtain ⟨a', b', h⟩ := tracks_run hp k
    rw [← hardLimits_offer h (hl k), ← run_take_succ hk]
    exact hl (k + 1)
  · intro hno k
    induction k with
    | zero => exact ⟨fun _ hne => absurd rfl hne, fun _ hne => absurd rfl hne⟩
    | succ k ih =>
      cases hk : offers[k]? with
      | none => simpa [take_add_one, hk] using ih
      | some o =>
        obtain ⟨a', b', h⟩ := tracks_run hp k
        rw [run_take_succ hk]
        exact (hardLimits_offer h ih).mpr (hno k o hk)

def tenActive : ActiveTokenBudget :=
  { capacity := 10, allowChunking := true, applicableTypes := RequestType.all }

def resident (n : ℤ) : TotalContextTokenBudget :=
  { capacity := n, applicableTypes := [.CE, .MIXED] }

def twoPrompts : List Offer :=
  [⟨.initial (replicate 8 1), .CE⟩, ⟨.initial (replicate 16 1), .CE⟩]

theorem twoPrompts_proper : ∀ o ∈ twoPrompts, o.context.Proper := by
  intro o ho
  simp only [twoPrompts, mem_cons, not_mem_nil, or_false] at ho
  rcases ho with rfl | rfl <;> exact TokenBuffer.initial_proper _

theorem hardLimits_run_iff_twoPrompts : (∀ k, HardLimits tenActive (resident 24)
        (Batch.run tenActive (resident 24) (twoPrompts.take k))) ↔ ∀ k o, twoPrompts[k]? = some o →
        ¬ HiddenOverrun (resident 24) (Batch.run tenActive (resident 24) (twoPrompts.take k)) o :=
  hardLimits_run_iff tenActive (resident 24) twoPrompts twoPrompts_proper

/-- With twenty resident tokens allowed, the second prompt is cut to the two active tokens left,
    which closes the active budget, and the batch holds 24 tokens. -/
theorem twoPrompts_overrun : (∀ o ∈ twoPrompts, o.context.Proper) ∧
      ¬ HardLimits tenActive (resident 20) (Batch.run tenActive (resident 20) twoPrompts) := by
  refine ⟨twoPrompts_proper, fun h => ?_⟩
  have hle := h.total (by decide) (by decide)
  revert hle
  decide

end MojoProse.Scheduler
