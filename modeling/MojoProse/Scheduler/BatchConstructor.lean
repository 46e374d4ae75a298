import MojoProse.Schemes.Queue
import MojoProse.Schemes.Dict
import MojoProse.Schemes.Effect
import MojoProse.Scheduler.TokenBudget
import Mathlib.Data.List.Dedup
import Mathlib.Algebra.Order.Ring.Int

/-! `TextBatchConstructor` (`text_batch_constructor.py`): the containers a request waits in, and how
    the scheduler's calls move it between them.

    What the budgets, the KV cache, the LoRA manager, the grammar builds, the transfers, the planner of
    balanced steps and the cadence gates answer during a call is an input of the call. Weights, arrival
    times, metrics and padding contexts decide nothing else and are not part of the state. -/

namespace MojoProse.Scheduler
open Schemes Function List

/-- What `kv_cache.alloc` answers: the blocks are ready, their onload has not landed, or there are not
    enough of them. -/
inductive AllocAnswer where | ready | onloading | insufficient
  deriving DecidableEq

inductive BatchSchedulingStrategy where | prefillFirst | decodeFirst | balanced | perReplica
  deriving DecidableEq

structure BatchConfig where
  numReplicas : ℕ
  dpCeBalanceEnabled : Bool
  maxBatchSize : ℕ
  enableInFlightBatching : Bool
  strategy : BatchSchedulingStrategy
  hasGrammarGate : Bool

structure ReplicaRequests (R : Type) where
  ceReqs : Queue R
  tgReqs : Queue R
  deferredLoraRequests : Queue R

/-- The containers, with the claims of the KV cache, its releases so far, the generated lengths and the last batch. -/
structure BatchConstructor (R : Type) where
  grammarPending : Dict R (Option ℕ)
  grammarFailed : List (R × String)
  cePending : Queue R
  ceArrival : R → Bool
  replicas : ℕ → ReplicaRequests R
  boundRequests : R → Option ℕ
  onloadingReqs : Dict R ℕ
  batches : ℕ → Queue R
  claimed : R → Bool
  releases : List R
  generatedLength : R → ℕ

/-- The answers during one `construct_batch`. -/
structure StepEnv (R : Type) where
  onloadComplete : R → Bool
  grammarReady : R → Bool
  grammarError : R → Option String
  plannedBinds : List (R × ℕ)
  ceDeferred : ℕ → Bool
  prefillIntervalOpen : Bool
  ceBackfillOpen : Bool
  kvPressure : ℕ → Bool
  canAllocateLora : BatchConstructor R → R → Bool
  loraReady : BatchConstructor R → R → Bool
  budgetRemaining : BatchConstructor R → ℕ → Bool
  status : BatchConstructor R → ℕ → RequestType → R → BudgetStatus
  alloc : BatchConstructor R → R → AllocAnswer
  holdsBlocks : BatchConstructor R → R → Bool
  transferInFlight : BatchConstructor R → ℕ → Bool

/-- What a call may raise. `insufficientBlocks` is the fatal one. -/
inductive BatchError (R : Type) where
  | insufficientBlocks (r : R) (replicaIdx : ℕ)
  | notFound (r : R)
  | keyError (r : R)
  | notClaimed (r : R)
  | alreadyClaimed (r : R)
  deriving DecidableEq

abbrev BatchEff (R α : Type) := EStateM (BatchError R) (BatchConstructor R) α

namespace BatchConstructor
variable {R : Type} [DecidableEq R]

def new : BatchConstructor R where
  grammarPending := .empty
  grammarFailed := []
  cePending := .empty
  ceArrival _ := false
  replicas _ := ⟨.empty, .empty, .empty⟩
  boundRequests _ := none
  onloadingReqs := .empty
  batches _ := .empty
  claimed _ := false
  releases := []
  generatedLength _ := 0

section
variable (s : BatchConstructor R)

def contains (r : R) : Bool :=
  (s.boundRequests r).isSome || r ∈ s.cePending || (s.grammarPending.get? r).isSome ||
    (s.onloadingReqs.get? r).isSome

def setReplica (i : ℕ) (q : ReplicaRequests R) : BatchConstructor R :=
  { s with replicas := update s.replicas i q }

variable (i : ℕ) (q : Queue R)

def setCe : BatchConstructor R :=
  s.setReplica i { s.replicas i with ceReqs := q }

def setTg : BatchConstructor R :=
  s.setReplica i { s.replicas i with tgReqs := q }

def setDeferred : BatchConstructor R :=
  s.setReplica i { s.replicas i with deferredLoraRequests := q }

def setBatch : BatchConstructor R :=
  { s with batches := update s.batches i q }

def setBound (r : R) (i : Option ℕ) : BatchConstructor R :=
  { s with boundRequests := update s.boundRequests r i }

def setArrival (r : R) (b : Bool) : BatchConstructor R :=
  { s with ceArrival := update s.ceArrival r b }

/-- `get_next_replica_idx`: the replica with the fewest requests, the first of those. -/
def getNextReplicaIdx (cfg : BatchConfig) (external : ℕ → ℤ) : ℕ :=
  let load := fun i : ℕ =>
    ((s.replicas i).ceReqs.length + (s.replicas i).tgReqs.length : ℤ) + external i
  (range cfg.numReplicas).foldl (fun best i => if load i < load best then i else best) 0

/-- `flat_batch` of the batches that were constructed last. -/
def flatBatch (cfg : BatchConfig) : List R :=
  (range cfg.numReplicas).flatMap fun i => (s.batches i).keys

def allTgReqs (cfg : BatchConfig) : List R :=
  ((range cfg.numReplicas).flatMap fun i => (s.replicas i).tgReqs.keys).dedup

def isAnythingInflight (env : StepEnv R) (i : ℕ) : Bool :=
  (s.onloadingReqs.entries.any fun e => e.2 = i) || env.transferInFlight s i

end

/-- `kv_cache.claim`. -/
def kvClaim (r : R) : BatchEff R Unit := do
  if (← get).claimed r then throw (.alreadyClaimed r)
  else modify fun s => { s with claimed := update s.claimed r true }

/-- `kv_cache.release`. -/
def kvRelease (r : R) : BatchEff R Unit := do
  if (← get).claimed r then
    modify fun s => { s with claimed := update s.claimed r false, releases := s.releases ++ [r] }
  else throw (.notClaimed r)

/-- `if kv_cache.contains(ctx): kv_cache.release(ctx)`. -/
def kvReleaseIfClaimed (r : R) : BatchEff R Unit := do
  if (← get).claimed r then kvRelease r

variable (cfg : BatchConfig)

def bindRequest (r : R) (i : ℕ) : BatchEff R Unit :=
  modify fun s =>
    let s := if s.generatedLength r = 0 then s.setCe i ((s.replicas i).ceReqs.push r)
      else s.setTg i ((s.replicas i).tgReqs.push r)
    s.setBound r (some i)

def admitRequest (r : R) (replicaIdx : Option ℕ) : BatchEff R Unit := do
  let s ← get
  if cfg.dpCeBalanceEnabled ∧ replicaIdx = none ∧ s.generatedLength r = 0 then
    set ({ s with cePending := s.cePending.push r }.setArrival r true)
  else bindRequest r (replicaIdx.getD (s.getNextReplicaIdx cfg fun _ => 0))

def failGrammarRequest (r : R) (error : String) : BatchEff R Unit :=
  modify fun s => { s with grammarFailed := s.grammarFailed ++ [(r, error)] }

/-- `install_ready`, and what follows from it. -/
def admitBuilt (r : R) (replicaIdx : Option ℕ) (error : Option String) : BatchEff R Unit :=
  match error with
  | none => admitRequest cfg r replicaIdx
  | some e => failGrammarRequest r e

/-- `enqueue_new_request`; `ready` and `error` are what the grammar gate says of the request. -/
def enqueueNewRequest (r : R) (replicaIdx : Option ℕ) (ready : Bool) (error : Option String) : BatchEff R Unit := do
  if cfg.hasGrammarGate ∧ (← get).generatedLength r = 0 then
    if ready then admitBuilt cfg r replicaIdx error
    else modify fun s => { s with grammarPending := s.grammarPending.insert r replicaIdx }
  else admitRequest cfg r replicaIdx

def takeGrammarFailed : BatchEff R (List (R × String)) := do
  let s ← get
  set { s with grammarFailed := [] }
  return s.grammarFailed

/-- The container of its replica that holds the request. -/
def leaveQueues (r : R) (i : ℕ) : BatchEff R Unit :=
  modify fun s =>
    if r ∈ (s.replicas i).ceReqs then s.setCe i ((s.replicas i).ceReqs.erase r)
    else if r ∈ (s.replicas i).tgReqs then s.setTg i ((s.replicas i).tgReqs.erase r)
    else if r ∈ (s.replicas i).deferredLoraRequests then
      s.setDeferred i ((s.replicas i).deferredLoraRequests.erase r)
    else s

def releaseBound (r : R) : BatchEff R Unit := do
  modify fun s => { s.setArrival r false with onloadingReqs := s.onloadingReqs.erase r }
  match (← get).boundRequests r with
  | none => throw (.keyError r)
  | some i =>
    leaveQueues r i
    kvReleaseIfClaimed r
    modify fun s => s.setBound r none

def releaseRequest (r : R) : BatchEff R Unit := do
  let s ← get
  if s.contains r = false then throw (.notFound r)
  else if (s.grammarPending.get? r).isSome then
    set { s with grammarPending := s.grammarPending.erase r }
  else if r ∈ s.cePending then
    set ({ s with cePending := s.cePending.erase r }.setArrival r false)
  else releaseBound r

def advanceToTg (i : ℕ) (r : R) : BatchEff R Unit := do
  if (← get).contains r then modify fun s => s.setTg i ((s.replicas i).tgReqs.push r)

/-- A request that produced no token is still in its prefill. -/
def advanceBackToCe (i : ℕ) (r : R) : BatchEff R Unit := do
  let s ← get
  if s.contains r ∧ s.generatedLength r = 0 then
    modify fun s => s.setTg i ((s.replicas i).tgReqs.erase r)
    modify fun s => s.setCe i ((s.replicas i).ceReqs.toFront r)

def advanceReplica (i : ℕ) : BatchEff R Unit := do
  let batch := ((← get).batches i).keys
  batch.forM (advanceToTg i)
  batch.reverse.forM (advanceBackToCe i)
  modify fun s => s.setBatch i .empty

/-- `advance_requests`, on the batch that was built last. -/
def advanceRequests : BatchEff R Unit := (range cfg.numReplicas).forM advanceReplica

/-- A request of the pool that its replica gives up goes back to the pool, any other one to the head of its queue. -/
def requeue (r : R) (i : ℕ) (unbind : Bool) : BatchEff R Unit := do
  let s ← get
  if unbind ∧ cfg.dpCeBalanceEnabled ∧ s.ceArrival r then
    if (s.boundRequests r).isNone then throw (.keyError r)
    else
      modify fun s => (s.setCe i ((s.replicas i).ceReqs.erase r)).setBound r none
      modify fun s => { s with cePending := s.cePending.toFront r }
  else
    bindRequest r i
    modify fun s => s.setCe i ((s.replicas i).ceReqs.toFront r)

def returnToRequestQueue (r : R) (i : ℕ) (unbind : Bool) : BatchEff R Unit := do
  kvReleaseIfClaimed r
  modify fun s => { s with generatedLength := update s.generatedLength r 0 }
  modify fun s => s.setTg i ((s.replicas i).tgReqs.erase r)
  requeue cfg r i unbind

def preemptRequest (r : R) (i : ℕ) : BatchEff R Unit := returnToRequestQueue cfg r i true

/-- `_preempt_ce_block_holder`: the newest queued request that holds blocks. -/
def preemptCeBlockHolder (env : StepEnv R) (i : ℕ) : BatchEff R Bool := do
  let s ← get
  match (s.replicas i).ceReqs.keys.reverse.find? fun r => s.claimed r && env.holdsBlocks s r with
  | none => return false
  | some r =>
    preemptRequest cfg r i
    return true

/-- The planner deferred the replica, or prefill is off cadence. -/
def ceClosed (env : StepEnv R) (i : ℕ) : Bool :=
  (cfg.dpCeBalanceEnabled && env.ceDeferred i) || !env.prefillIntervalOpen

/-- How a turn of `_add_ce_requests` ends: the loop goes on, it breaks, or the call returns. -/
inductive Turn where | goesOn | breaks | returns
  deriving DecidableEq

def addToBatch (i : ℕ) (r : R) : BatchEff R Unit :=
  modify fun s => s.setBatch i ((s.batches i).push r)

/-- The request has its blocks. -/
def seatCe (env : StepEnv R) (i : ℕ) (r : R) : BatchEff R Turn := do
  match env.status (← get) i .CE r with
  | .exhausted =>
    returnToRequestQueue cfg r i false
    return .returns
  | .reached =>
    addToBatch i r
    return .breaks
  | .available =>
    addToBatch i r
    return .goesOn

/-- The request is claimed, and asks for its blocks. -/
def allocCe (env : StepEnv R) (i : ℕ) (r : R) : BatchEff R Turn := do
  let s ← get
  match env.alloc s r with
  | .insufficient =>
    let noOtherWork := (s.replicas i).tgReqs.keys.isEmpty && (s.batches i).keys.isEmpty
    if noOtherWork && !s.isAnythingInflight env i then throw (.insufficientBlocks r i)
    else
      returnToRequestQueue cfg r i false
      return .breaks
  | .onloading =>
    modify fun s => { s with onloadingReqs := s.onloadingReqs.insert r i }
    return .goesOn
  | .ready => seatCe cfg env i r

def claimUnlessClaimed (r : R) : BatchEff R Unit := do
  if (← get).claimed r = false then kvClaim r

/-- One turn of the loop of `_add_ce_requests`, for the request it popped. -/
def ceTurn (env : StepEnv R) (i : ℕ) (r : R) : BatchEff R Turn := do
  let s ← get
  if env.canAllocateLora s r = false then
    modify fun s => s.setDeferred i ((s.replicas i).deferredLoraRequests.push r)
    return .goesOn
  else if env.budgetRemaining s i = false then
    returnToRequestQueue cfg r i false
    return .returns
  else
    claimUnlessClaimed r
    allocCe cfg env i r

/-- The loop of `_add_ce_requests`. Each turn takes a request off the queue, so its length bounds the turns. -/
def addCeLoop (env : StepEnv R) (i startingTgReqsCount : ℕ) : ℕ → BatchEff R Turn
  | 0 => return .breaks
  | n + 1 => do
    let s ← get
    let inBatch := (s.batches i).length
    match (s.replicas i).ceReqs.keys with
    | [] => return .breaks
    | r :: _ =>
      if inBatch < cfg.maxBatchSize ∧
          inBatch + (s.replicas i).tgReqs.length - startingTgReqsCount < cfg.maxBatchSize then
        modify fun s => s.setCe i ((s.replicas i).ceReqs.erase r)
        match ← ceTurn cfg env i r with
        | .goesOn => addCeLoop env i startingTgReqsCount n
        | .breaks => return .breaks
        | .returns => return .returns
      else return .breaks

def updateDeferredLoraRequests (i : ℕ) : BatchEff R Unit := do
  ((← get).replicas i).deferredLoraRequests.keys.forM fun r => do
    modify fun s => s.setDeferred i ((s.replicas i).deferredLoraRequests.erase r)
    modify fun s => s.setCe i ((s.replicas i).ceReqs.toFront r)

def addCeRequests (env : StepEnv R) (i : ℕ) : BatchEff R Unit := do
  if ceClosed cfg env i then return
  else
    let s ← get
    match ← addCeLoop cfg env i (s.batches i).length (s.replicas i).ceReqs.length with
    | .returns => return
    | _ => updateDeferredLoraRequests i

/-- Nothing is left to preempt: fatal when there is no other work and nothing is in flight. -/
def giveUp (env : StepEnv R) (i : ℕ) (r : R) : BatchEff R Bool := do
  let s ← get
  if (s.batches i).keys.isEmpty && !s.isAnythingInflight env i then throw (.insufficientBlocks r i)
  else return false

/-- Requests queued with blocks are preempted until the allocation goes through; the queue's length bounds the turns. -/
def allocPreemptingCe (env : StepEnv R) (i : ℕ) (r : R) : ℕ → BatchEff R Bool
  | 0 => do
    if env.alloc (← get) r ≠ .insufficient then return true
    else giveUp env i r
  | n + 1 => do
    if env.alloc (← get) r ≠ .insufficient then return true
    else if ← preemptCeBlockHolder cfg env i then allocPreemptingCe env i r n
    else giveUp env i r

/-- While the allocation fails, the newest other candidate is preempted. The result has the candidates left, newest
    first. -/
def allocTg (env : StepEnv R) (i : ℕ) (r : R) : List R → BatchEff R (Option (List R))
  | [] => do
    let s ← get
    if ← allocPreemptingCe cfg env i r (s.replicas i).ceReqs.length then return some []
    else return none
  | newest :: rest => do
    if env.alloc (← get) r ≠ .insufficient then return some (newest :: rest)
    else
      modify fun s => s.setTg i ((s.replicas i).tgReqs.erase newest)
      preemptRequest cfg newest i
      allocTg env i r rest

/-- The loop of `_add_tg_requests` over its candidates, oldest first; at most `n` turns. -/
def addTgLoop (env : StepEnv R) (i : ℕ) : ℕ → List R → BatchEff R Unit
  | 0, _ => return
  | _, [] => return
  | n + 1, r :: candidates => do
    let s ← get
    if (s.batches i).length < cfg.maxBatchSize then
      if env.loraReady s r = false then
        preemptRequest cfg r i
        addTgLoop env i n candidates
      else if env.status s i .TG r = .exhausted then return
      else
        match ← allocTg cfg env i r candidates.reverse with
        | none => return
        | some newestFirst =>
          addToBatch i r
          if env.status s i .TG r = .reached then return
          else addTgLoop env i n newestFirst.reverse
    else return

variable (env : StepEnv R)

def addTgRequests (i : ℕ) : BatchEff R Unit := do
  let candidates := ((← get).replicas i).tgReqs.keys
  addTgLoop cfg env i candidates.length candidates

def identifyPriority (s : BatchConstructor R) (i : ℕ) : Option RequestType :=
  let ce := (s.replicas i).ceReqs.keys
  let tg := (s.replicas i).tgReqs.keys
  if cfg.dpCeBalanceEnabled && env.ceDeferred i then some .TG
  else if ce.isEmpty && tg.isEmpty then none
  else if !env.prefillIntervalOpen then some .TG
  else if ce.isEmpty then some .TG
  else if tg.isEmpty then some .CE
  else if env.kvPressure i then some .TG
  else if cfg.enableInFlightBatching then some .TG
  else some .CE

def priorityOverride (s : BatchConstructor R) : Option RequestType :=
  let priorities := (range cfg.numReplicas).map (identifyPriority cfg env s)
  match cfg.strategy with
  | .decodeFirst => if some .TG ∈ priorities then some .TG else none
  | .prefillFirst => if some .CE ∈ priorities then some .CE else none
  | .balanced => if priorities.count (some .CE) > priorities.count (some .TG) then some .CE else some .TG
  | .perReplica => none

def constructReplicaBatch (override : Option RequestType) (i : ℕ) : BatchEff R Unit := do
  modify fun s => s.setBatch i .empty
  let s ← get
  match override.orElse fun _ => identifyPriority cfg env s i with
  | some .CE =>
    addCeRequests cfg env i
    if ((← get).batches i).keys.isEmpty ∧ override = none then addTgRequests cfg env i
  | some .TG =>
    addTgRequests cfg env i
    if cfg.enableInFlightBatching ∧ ((← get).batches i).keys.isEmpty = false ∧ override = none ∧
        env.ceBackfillOpen then addCeRequests cfg env i
  | _ => return

def readmitCompletedOnloads : BatchEff R Unit := do
  ((← get).onloadingReqs.entries.filter fun e => env.onloadComplete e.1).forM fun (r, i) => do
    modify fun s => { s with onloadingReqs := s.onloadingReqs.erase r }
    modify fun s => s.setCe i ((s.replicas i).ceReqs.toFront r)

def promoteGrammarReadyRequests : BatchEff R Unit := do
  if cfg.hasGrammarGate then
    ((← get).grammarPending.entries.filter fun e => env.grammarReady e.1).forM fun (r, replicaIdx) => do
      modify fun s => { s with grammarPending := s.grammarPending.erase r }
      admitBuilt cfg r replicaIdx (env.grammarError r)

/-- The binds of `_plan_ce_step`, of requests of the pool. -/
def planCeStep : BatchEff R Unit := do
  if cfg.dpCeBalanceEnabled then
    env.plannedBinds.forM fun (r, i) => do
      if r ∈ (← get).cePending then
        modify fun s => { s with cePending := s.cePending.erase r }
        bindRequest r i

def constructBatch : BatchEff R Unit := do
  readmitCompletedOnloads env
  promoteGrammarReadyRequests cfg env
  planCeStep cfg env
  let override := priorityOverride cfg env (← get)
  (range cfg.numReplicas).forM (constructReplicaBatch cfg env override)

end BatchConstructor

end MojoProse.Scheduler
