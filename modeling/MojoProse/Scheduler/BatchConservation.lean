import MojoProse.Scheduler.BatchBuilding
import MojoProse.Scheduler.BatchAdvance
import MojoProse.Schemes.Run

/-! Runs of the batch constructor: no request is lost and none is in two places.

    The scheduler chooses the calls and the environment what happens in them. A request is live from its
    `enqueue_new_request` on, until it is released or the grammar gate fails it. -/

namespace MojoProse.Scheduler
open Schemes BatchConstructor Bool

/-- The calls of the scheduler, and the execution of a batch, which sets the generated lengths. -/
inductive BatchOp (R : Type) where
  | enqueueNewRequest (r : R) (replicaIdx : Option ℕ) (ready : Bool) (error : Option String)
  | constructBatch (env : StepEnv R)
  | execute (generatedLength : R → ℕ)
  | advanceRequests
  | releaseRequest (r : R)
  | takeGrammarFailed

structure Session (R : Type) where
  constructor : BatchConstructor R
  live : R → Bool

namespace Session
variable {R : Type} [DecidableEq R] (cfg : BatchConfig)

def new : Session R := ⟨.new, fun _ => false⟩

def call : BatchOp R → BatchEff R Unit
  | .enqueueNewRequest r replicaIdx ready error =>
    enqueueNewRequest cfg r replicaIdx ready error
  | .constructBatch env => constructBatch cfg env
  | .execute generatedLength => modify fun s => { s with generatedLength := generatedLength }
  | .advanceRequests => advanceRequests cfg
  | .releaseRequest r => releaseRequest r
  | .takeGrammarFailed => do
    let _ ← takeGrammarFailed

def after (s : BatchConstructor R) (op : BatchOp R) : BatchConstructor R :=
  match call cfg op s with
  | .ok _ s' => s'
  | .error _ s' => s'

def raised (s : BatchConstructor R) (op : BatchOp R) : Option (BatchError R) :=
  match call cfg op s with
  | .ok _ _ => none
  | .error e _ => some e

def fatal : Option (BatchError R) → Bool
  | some (.insufficientBlocks _ _) => true
  | _ => false

def failedSince (s s' : BatchConstructor R) : List R :=
  (s'.grammarFailed.drop s.grammarFailed.length).map Prod.fst

def liveAfter (σ : Session R) (s' : BatchConstructor R) : BatchOp R → R → Bool
  | .enqueueNewRequest r' _ _ _, r => (σ.live r || r = r') && r ∉ failedSince σ.constructor s'
  | .releaseRequest r', r => σ.live r && r ≠ r'
  | _, r => σ.live r && r ∉ failedSince σ.constructor s'

def next (σ : Session R) (op : BatchOp R) : Session R :=
  let s' := after cfg σ.constructor op
  ⟨s', σ.liveAfter s' op⟩

/-- An id is enqueued if it is unknown, a batch constructed if the last one has been advanced and the call is not fatal.
    -/
def Allowed (σ : Session R) : BatchOp R → Prop
  | .enqueueNewRequest r _ _ _ =>
    σ.constructor.contains r = false ∧ r ∉ σ.constructor.flatBatch cfg
  | .constructBatch env =>
    σ.constructor.flatBatch cfg = [] ∧ fatal (raised cfg σ.constructor (.constructBatch env)) = false
  | _ => True

instance (σ : Session R) : DecidablePred (Allowed cfg σ)
  | .enqueueNewRequest r _ _ _ =>
    inferInstanceAs (Decidable (σ.constructor.contains r = false ∧ r ∉ σ.constructor.flatBatch cfg))
  | .constructBatch env => inferInstanceAs (Decidable (σ.constructor.flatBatch cfg = [] ∧
      fatal (raised cfg σ.constructor (.constructBatch env)) = false))
  | .execute _ | .advanceRequests | .releaseRequest _ | .takeGrammarFailed =>
    inferInstanceAs (Decidable True)

variable {cfg} {s s' : BatchConstructor R} {r : R} {σ : Session R}

omit [DecidableEq R] in
theorem mem_flatBatch : r ∈ s.flatBatch cfg ↔ ∃ i < cfg.numReplicas, r ∈ s.batches i := by
  simp [flatBatch, Queue.mem_keys]

theorem next_of_ends {op : BatchOp R} {Q : Session R → Prop} {E : BatchError R → BatchConstructor R → Prop}
    (h : Ends (call cfg op σ.constructor) (fun _ s' => Q ⟨s', σ.liveAfter s' op⟩) E)
    (hE : ∀ e s', call cfg op σ.constructor = .error e s' → E e s' → Q ⟨s', σ.liveAfter s' op⟩) :
    Q (next cfg σ op) := by
  rw [next, after]
  cases hc : call cfg op σ.constructor with
  | ok a s' =>
    rw [hc] at h
    exact h
  | error e s' =>
    rw [hc] at h
    exact hE e s' hc h

/-- Every request is at a place or gone, the batches are those of the replicas, and a live request is not gone. -/
structure Conserved (cfg : BatchConfig) (σ : Session R) : Prop where
  placed : σ.constructor.Placed
  batches : ∀ i, cfg.numReplicas ≤ i → ∀ r, r ∉ σ.constructor.batches i
  live : ∀ r, σ.live r = true → σ.constructor.contains r = true

theorem conserved_new : Conserved cfg (new : Session R) where
  placed r := .inr fun t ht => by
    cases t <;> simp [Has, new, BatchConstructor.new] at ht
  batches _ _ r := Queue.notMem_empty r
  live r hr := by simp [new] at hr

/-- A request the constructor does not know, and which is in no batch, is in no container. -/
theorem Conserved.at_unbound (h : Conserved cfg σ) (hc : σ.constructor.contains r = false)
    (hb : r ∉ σ.constructor.flatBatch cfg) : σ.constructor.At r .unbound := by
  intro t
  refine ⟨fun ht => ?_, fun ht => by simp [Place.tags] at ht⟩
  rcases h.placed r with ⟨pl, hs, hat⟩ | hgone
  · rw [hat.contains (by rintro rfl; exact hs)] at hc
    cases hc
  · obtain ⟨i, rfl⟩ := hgone t ht
    rcases lt_or_ge i cfg.numReplicas with hi | hi
    · exact absurd (mem_flatBatch.mpr ⟨i, hi, ht⟩) hb
    · exact absurd ht (h.batches i hi r)

omit [DecidableEq R] in
theorem failedSince_of_eq {out : List R} (h : s'.grammarFailed.map Prod.fst = s.grammarFailed.map Prod.fst ++ out) :
    failedSince s s' = out := by
  rw [failedSince, List.map_drop, h, List.drop_left' (List.length_map ..)]

theorem Conserved.of_keeps {out : List R} {live : R → Bool} (h : Conserved cfg σ) (hp : s'.Placed)
    (hk : Keeps {i | i < cfg.numReplicas} out σ.constructor s')
    (hlive : ∀ r, live r = true → σ.live r = true ∧ r ∉ failedSince σ.constructor s') : Conserved cfg ⟨s', live⟩ where
  placed := hp
  batches i hi r hr := h.batches i hi r ((hk.batches i (by simpa using hi) r).mp hr)
  live r hr := by
    obtain ⟨hlive', hout⟩ := hlive r hr
    rw [failedSince_of_eq hk.failed] at hout
    exact (hk.contains r).mpr ⟨h.live r hlive', hout⟩

theorem Conserved.of_has {live : R → Bool} (h : Conserved cfg σ)
    (hhas : ∀ r t, s'.Has r t ↔ σ.constructor.Has r t) (hlive : ∀ r, live r = true → σ.live r = true) :
    Conserved cfg ⟨s', live⟩ where
  placed r := placed_congr (hhas r) (h.placed r)
  batches i hi r hr := h.batches i hi r ((hhas r (.batch i)).mp hr)
  live r hr := by
    rw [contains_congr (hhas r)]
    exact h.live r (hlive r hr)

theorem Conserved.enqueue {replicaIdx : Option ℕ} {ready : Bool} {error : Option String}
    (h : Conserved cfg σ) (ha : Allowed cfg σ (.enqueueNewRequest r replicaIdx ready error)) :
    Conserved cfg (next cfg σ (.enqueueNewRequest r replicaIdx ready error)) := by
  have hat := h.at_unbound ha.1 ha.2
  refine next_of_ends (E := fun _ _ => False) ((enqueueNewRequest_ends (I := ∅) hat).imp ?_)
    fun _ _ _ he => he.elim
  rintro _ s' (⟨pl, hs, hnear, hm⟩ | ⟨-, hf⟩)
  · refine ⟨hm.placed (h.placed.but r) hs, fun i hi r' (hr' : s'.Has r' (.batch i)) => ?_, fun r' hr' => ?_⟩
    · rcases eq_or_ne r' r with rfl | hne
      · exact hnear i (by simp) ((hm.located _).mp hr')
      · exact h.batches i hi r' ((hm.frame r' _ hne).mp hr')
    · rcases eq_or_ne r' r with rfl | hne
      · exact hm.located.contains (by rintro rfl; exact hs)
      · rw [contains_congr (hm.frame r' · hne)]
        simp only [liveAfter, hne, decide_false, Bool.or_false, Bool.and_eq_true] at hr'
        exact h.live r' hr'.1
  · -- the request is failed at once, so it is not live
    refine h.of_has hf.has fun r' hr' => ?_
    simp only [liveAfter, failedSince_of_eq hf.failed, and_eq_true, or_eq_true,
      decide_eq_true_eq, List.mem_singleton] at hr'
    exact hr'.1.resolve_right hr'.2

theorem Conserved.construct {env : StepEnv R} (h : Conserved cfg σ)
    (ha : Allowed cfg σ (.constructBatch env)) : Conserved cfg (next cfg σ (.constructBatch env)) := by
  have hempty : ∀ i < cfg.numReplicas, ∀ r, r ∉ σ.constructor.batches i := fun i hi r hr => by
    have hmem := mem_flatBatch.mpr ⟨i, hi, hr⟩
    rw [ha.1] at hmem
    cases hmem
  refine next_of_ends ((constructBatch_ends h.placed hempty).imp ?_) ?_
  · rintro _ s' ⟨hp, out, -, hk⟩
    exact h.of_keeps hp hk fun r hr => by simpa [liveAfter] using hr
  · rintro e s' hraise ⟨r, i, rfl⟩
    have hnot := ha.2
    rw [raised, hraise] at hnot
    cases hnot

theorem Conserved.advance (h : Conserved cfg σ) : Conserved cfg (next cfg σ .advanceRequests) := by
  refine next_of_ends (E := fun _ _ => False) ((advanceRequests_ends h.placed).imp ?_)
    fun _ _ _ he => he.elim
  rintro _ s' ⟨⟨hp, hk⟩, -⟩
  exact h.of_keeps hp hk fun r hr => by simpa [liveAfter] using hr

/-- A request that is not there cannot be released; the exception leaves all as it is. -/
theorem Conserved.release (h : Conserved cfg σ) : Conserved cfg (next cfg σ (.releaseRequest r)) := by
  cases hc : σ.constructor.contains r with
  | true =>
    refine next_of_ends (E := fun _ _ => False) ((releaseRequest_ends h.placed hc).imp ?_)
      fun _ _ _ he => he.elim
    intro _ s' hd
    refine ⟨hd.placed h.placed, fun i hi r' (hr' : s'.Has r' (.batch i)) => ?_, fun r' hr' => ?_⟩
    · rcases eq_or_ne r' r with rfl | hne
      · exact h.batches i hi r' (hd.batches i hr')
      · exact h.batches i hi r' ((hd.frame r' _ hne).mp hr')
    · simp only [liveAfter, and_eq_true, decide_eq_true_eq] at hr'
      exact (hd.contains r').mpr ⟨h.live r' hr'.1, hr'.2⟩
  | false =>
    have hraise : call cfg (.releaseRequest r) σ.constructor = .error (.notFound r) σ.constructor := by
      rw [call, releaseRequest, bind_get, if_pos hc]
      rfl
    rw [next, after, hraise]
    exact h.of_has (fun _ _ => Iff.rfl) fun r' hr' => (and_eq_true_iff.mp hr').1

theorem Conserved.step {op : BatchOp R} (h : Conserved cfg σ) (ha : Allowed cfg σ op) :
    Conserved cfg (next cfg σ op) := by
  cases op with
  | enqueueNewRequest r replicaIdx ready error => exact h.enqueue ha
  | constructBatch env => exact h.construct ha
  | execute generatedLength =>
    exact h.of_has (fun r t => by cases t <;> rfl) fun r hr => (and_eq_true_iff.mp hr).1
  | advanceRequests => exact h.advance
  | releaseRequest r => exact h.release
  | takeGrammarFailed =>
    exact h.of_has (fun r t => by cases t <;> rfl) fun r hr => (and_eq_true_iff.mp hr).1

theorem count_flatBatch_le {pl : Place} (hat : s.At r pl) : (s.flatBatch cfg).count r ≤ 1 := by
  have hone : ∀ i j, r ∈ s.batches i → r ∈ s.batches j → i = j := by
    intro i j hi hj
    have hi' := (hat (.batch i)).mp hi
    have hj' := (hat (.batch j)).mp hj
    rcases pl with _ | _ | k | k | k | k | ⟨k, _ | _⟩ | k | _ | k <;> simp_all [Place.tags]
  exact Queue.count_flatMap_keys_le_one hone List.nodup_range

/-- **No request is lost or duplicated.** In every state of a run a live request is at exactly one place,
    the constructor contains it, and it is at most once in the batches. -/
theorem live_placed_once (h : Reachable new (Allowed cfg) (next cfg) σ) (hr : σ.live r = true) :
    (∃! pl : Place, pl.Settled ∧ σ.constructor.At r pl) ∧ σ.constructor.contains r = true ∧
      (σ.constructor.flatBatch cfg).count r ≤ 1 := by
  have hinv : Conserved cfg σ := h.invariant conserved_new fun _ _ => Conserved.step
  have hc := hinv.live r hr
  obtain ⟨pl, hs, hat⟩ := hinv.placed.at_of_contains hc
  refine ⟨⟨pl, ⟨hs, hat⟩, ?_⟩, hc, count_flatBatch_le hat⟩
  rintro pl' ⟨hs', hat'⟩
  exact Place.eq_of_tags hs' hs fun t => (hat' t).symm.trans (hat t)

def pooled : BatchConfig where
  numReplicas := 2
  dpCeBalanceEnabled := true
  maxBatchSize := 1
  enableInFlightBatching := true
  strategy := .perReplica
  hasGrammarGate := true

/-- A step in which everything is granted and the grammars are built; the planner binds `binds`. -/
def granting (binds : List (ℕ × ℕ)) : StepEnv ℕ where
  onloadComplete _ := true
  grammarReady _ := true
  grammarError _ := none
  plannedBinds := binds
  ceDeferred _ := false
  prefillIntervalOpen := true
  ceBackfillOpen := true
  kvPressure _ := false
  canAllocateLora _ _ := true
  loraReady _ _ := true
  budgetRemaining _ _ := true
  status _ _ _ _ := .available
  alloc _ _ := .ready
  holdsBlocks _ _ := true
  transferInFlight _ _ := false

/-- Two requests reach one replica, by the pool and by its grammar. The second is seated first, the first waits. -/
def contended : List (BatchOp ℕ) :=
  [.enqueueNewRequest 0 none true none, .enqueueNewRequest 1 (some 0) false none,
    .constructBatch (granting [(0, 0)]), .execute fun _ => 1, .advanceRequests,
    .constructBatch (granting [])]

theorem live_placed_once_contended : (contended.foldl (next pooled) new).live 1 = true ∧
      (∃! pl : Place, pl.Settled ∧ (contended.foldl (next pooled) new).constructor.At 1 pl) ∧
      (contended.foldl (next pooled) new).constructor.contains 1 = true ∧
      ((contended.foldl (next pooled) new).constructor.flatBatch pooled).count 1 ≤ 1 := by
  have hlive : (contended.foldl (next pooled) new).live 1 = true := by decide +kernel
  exact ⟨hlive, live_placed_once (.run contended .start (by decide +kernel)) hlive⟩

end Session

end MojoProse.Scheduler
