import MojoProse.Schemes.Dict
import MojoProse.Schemes.Effect
import Mathlib.Logic.Function.Basic
import Mathlib.Data.List.Range
import Mathlib.Data.List.Dedup

/-! `BlockPool` (`block_pool.py`): the device blocks of one replica.

    A block is its `bid`; the free queue is the list of the bids in it, front first. The block behind
    the last one is the null block. An exception leaves the pool as it is at that point. -/

namespace MojoProse.KvCache
open Schemes

/-- `poolAssertion` is an `assert` of the pool; `requestTooLong` and `notEnoughBlocks` are `InsufficientBlocksError`. -/
inductive BlockError (R : Type) where
  | poolAssertion
  | poolValueError (message : String)
  | keyError (bid : ℕ)
  | requestTooLong (seqLen totalNumBlocks blockSize : ℕ)
  | notEnoughBlocks (numNewBlocks free totalNumBlocks : ℕ)
  | unclaimed (r : R)
  | alreadyClaimed (r : R) (replicaIdx : ℕ)
  | indexError
  | assertion (message : String)
  | valueError (message : String)
  deriving DecidableEq, Repr

def BlockError.isInsufficient {R : Type} : BlockError R → Bool
  | .requestTooLong .. => true
  | .notEnoughBlocks .. => true
  | _ => false

def BlockError.message {R : Type} [ToString R] : BlockError R → String
  | .poolAssertion => ""
  | .poolValueError m => m
  | .keyError bid => s!"{bid}"
  | .requestTooLong seqLen total blockSize =>
    s!"Insufficient KV pages for a single request with {seqLen} tokens.\n" ++
      s!"The KVCache has {total} pages with page size {blockSize}. This is only enough to support {total * blockSize} tokens.\n" ++
      "You must restart your process and set a lower max seq len to prevent a single request from using the entire KV cache."
  | .notEnoughBlocks numNew free total =>
    s!"Cannot get {numNew} free blocks from the free block queue (only {free} available; {total - free}/{total} blocks currently in use)"
  | .unclaimed r => s!"Request is not claimed, so it holds no pages to work with: {r}"
  | .alreadyClaimed r replica => s!"Request is already claimed, on replica {replica}: {r}"
  | .indexError => "list index out of range"
  | .assertion m => m
  | .valueError m => m

structure BlockPool (H : Type) where
  freeBlockQueue : List ℕ
  refCnt : ℕ → ℕ
  blockHash : ℕ → Option H
  prefixCache : Dict H ℕ

namespace BlockPool
variable {H R : Type} [DecidableEq H]

abbrev Eff (H R α : Type) := EStateM (BlockError R) (BlockPool H) α

/-- A new pool of `total` blocks, all of them free. -/
def new (total : ℕ) : BlockPool H where
  freeBlockQueue := List.range total
  refCnt _ := 0
  blockHash _ := none
  prefixCache := .empty

def setRefCnt (p : BlockPool H) (bid n : ℕ) : BlockPool H :=
  { p with refCnt := Function.update p.refCnt bid n }

def setHash (p : BlockPool H) (bid : ℕ) (h : Option H) : BlockPool H :=
  { p with blockHash := Function.update p.blockHash bid h }

def numFreeBlocks (p : BlockPool H) : ℕ := p.freeBlockQueue.length

/-- `block_hash in self.prefix_cache`. -/
def holds (p : BlockPool H) (h : H) : Bool := (p.prefixCache.get? h).isSome

/-- `commit_into_prefix_cache`: the block has its hash before the second assertion. -/
def commitIntoPrefixCache (total : ℕ) (h : H) (bid : ℕ) : Eff H R Unit := do
  if bid = total then throw (.poolValueError "Cannot commit null block into prefix cache")
  if (← get).blockHash bid ≠ none then throw .poolAssertion
  modify fun p => p.setHash bid (some h)
  let p ← get
  if hnew : h ∈ p.prefixCache.entries.map Prod.fst then throw .poolAssertion
  else set { p with prefixCache := p.prefixCache.insertNew h bid hnew }

def touch (bid : ℕ) : Eff H R Unit := do
  let p ← get
  if p.refCnt bid = 0 then
    if bid ∉ p.freeBlockQueue then throw (.keyError bid)
    set { p with freeBlockQueue := p.freeBlockQueue.erase bid }
  modify fun p => p.setRefCnt bid (p.refCnt bid + 1)

def freeBlock (total bid : ℕ) : Eff H R Unit := do
  if bid = total then return
  let p ← get
  if p.refCnt bid = 0 then throw .poolAssertion
  set (p.setRefCnt bid (p.refCnt bid - 1))
  if p.refCnt bid = 1 then
    modify fun p => { p with freeBlockQueue := p.freeBlockQueue ++ [bid] }

/-- `get_or_commit_into_prefix_cache`, with the block to use instead. -/
def getOrCommitIntoPrefixCache (total : ℕ) (h : H) (bid : ℕ) : Eff H R (Option ℕ) := do
  match (← get).prefixCache.get? h with
  | some prefixCacheBlock =>
    if bid = prefixCacheBlock then return none
    touch prefixCacheBlock
    if (← get).blockHash bid ≠ none then throw .poolAssertion
    freeBlock total bid
    return some prefixCacheBlock
  | none =>
    commitIntoPrefixCache total h bid
    return none

def uncommitBlock (bid : ℕ) : Eff H R Unit := do
  let p ← get
  match p.blockHash bid with
  | none => throw .poolAssertion
  | some h =>
    if p.holds h then
      set ({ p with prefixCache := p.prefixCache.erase h }.setHash bid none)

/-- `alloc_block`, with the hash that was evicted. -/
def allocBlock : Eff H R (ℕ × Option H) := do
  let p ← get
  match p.freeBlockQueue with
  | [] => throw (.poolValueError "No free blocks available")
  | bid :: rest =>
    set { p with freeBlockQueue := rest }
    if p.refCnt bid ≠ 0 then throw .poolAssertion
    let evicted := p.blockHash bid
    if evicted.isSome then uncommitBlock bid
    modify fun p => p.setRefCnt bid (p.refCnt bid + 1)
    if (← get).blockHash bid ≠ none then throw .poolAssertion
    return (bid, evicted)

/-- `reset_prefix_cache`: the commits no request holds. -/
def resetPrefixCache : Eff H R Unit := do
  (← get).prefixCache.entries.forM fun e => do
    let p ← get
    if p.blockHash e.2 = none then throw .poolAssertion
    if p.refCnt e.2 = 0 then set (p.setHash e.2 none)
  modify fun p => { p with prefixCache := p.prefixCache.filter fun e => p.refCnt e.2 ≠ 0 }

def assertRuntimeInvariants (enableRuntimeChecks : Bool) (total : ℕ) (activeBids : List ℕ) : Eff H R Unit := do
  if enableRuntimeChecks then
    let p ← get
    if p.prefixCache.entries.any fun e => p.blockHash e.2 ≠ some e.1 then throw .poolAssertion
    if p.numFreeBlocks + activeBids.dedup.length ≠ total then throw .poolAssertion

end BlockPool

end MojoProse.KvCache
