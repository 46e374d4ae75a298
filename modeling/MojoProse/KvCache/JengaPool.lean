import MojoProse.Schemes.Dict
import Mathlib.Logic.Function.Basic
import Mathlib.Data.List.Range
import Mathlib.Algebra.Order.Floor.Div

/-! `JengaBlockPool` (`jenga_block_pool.py`): huge blocks, each subdividable into the little blocks of one cache.

    A little block is its cache id and its `bid`; its huge block is `bid / ratio`. Bid 0 is the null block: its
    reference count is pinned and no operation changes anything for it. A queue is the list of bids in it, front first.
    A call that raises returns no state: the state before it stays. -/

namespace MojoProse.KvCache
open Schemes Function

/-- What the constructor accepts: at least two huge blocks, and a positive ratio for each cache. -/
structure Geometry (C : Type) where
  numHugeBlocks : ℕ
  cacheRatios : C → ℕ
  two_le : 2 ≤ numHugeBlocks
  ratio_pos : ∀ c, 0 < cacheRatios c

namespace Geometry
variable {C : Type} (g : Geometry C)

/-- The huge block whose bytes a little block occupies. -/
def hugeOf (c : C) (bid : ℕ) : ℕ := bid / g.cacheRatios c

/-- `huge_block.little_blocks[cache_id]`. -/
def littles (c : C) (huge : ℕ) : List ℕ :=
  List.range' (huge * g.cacheRatios c) (g.cacheRatios c)

/-- Huge block 0 is spent on the null block. -/
def IsHuge (huge : ℕ) : Prop := 0 < huge ∧ huge < g.numHugeBlocks

/-- A real little block of the cache: one of a real huge block. -/
def IsLittle (c : C) (bid : ℕ) : Prop := g.IsHuge (g.hugeOf c bid)

end Geometry

inductive PoolError (C : Type) where
  | insufficientBlocks (cacheId : C)
  | assertion (message : String)
  | valueError (message : String)
  deriving DecidableEq, Repr

def PoolError.message {C : Type} [ToString C] : PoolError C → String
  | .insufficientBlocks c => s!"No free blocks available for {c}"
  | .assertion m => m
  | .valueError m => m

structure JengaBlockPool (C H : Type) where
  freeHugeBlocks : List ℕ
  freeLittleBlocks : C → List ℕ
  littleBlockType : ℕ → Option C
  refCnt : C → ℕ → ℕ
  blockHash : C → ℕ → Option H
  prefixCaches : C → Dict H ℕ
  parkedAndTyped : C → ℤ

namespace JengaBlockPool
variable {C H : Type} [DecidableEq C] [DecidableEq H]

def new (g : Geometry C) : JengaBlockPool C H where
  freeHugeBlocks := List.range' 1 (g.numHugeBlocks - 1)
  freeLittleBlocks _ := []
  littleBlockType _ := none
  refCnt _ _ := 0
  blockHash _ _ := none
  prefixCaches _ := .empty
  parkedAndTyped _ := 0

variable (g : Geometry C) (s : JengaBlockPool C H)

/-- `huge_block.ref_cnt`: the references to the little blocks of its current type. -/
def hugeRefCnt (huge : ℕ) : ℕ :=
  match s.littleBlockType huge with
  | none => 0
  | some c => ((g.littles c huge).map (s.refCnt c)).sum

def addParked (c : C) (n : ℤ) : JengaBlockPool C H :=
  { s with parkedAndTyped := update s.parkedAndTyped c (s.parkedAndTyped c + n) }

def setFreeLittle (c : C) (l : List ℕ) : JengaBlockPool C H :=
  { s with freeLittleBlocks := update s.freeLittleBlocks c l }

def setHash (c : C) (bid : ℕ) (h : Option H) : JengaBlockPool C H :=
  { s with blockHash := update s.blockHash c (update (s.blockHash c) bid h) }

def setPrefixCache (c : C) (d : Dict H ℕ) : JengaBlockPool C H :=
  { s with prefixCaches := update s.prefixCaches c d }

def setRefCnt (c : C) (bid n : ℕ) : JengaBlockPool C H :=
  { s with refCnt := update s.refCnt c (update (s.refCnt c) bid n) }

def uncommitBlock (c : C) (bid : ℕ) : JengaBlockPool C H :=
  match s.blockHash c bid with
  | none => s
  | some h => (s.setPrefixCache c ((s.prefixCaches c).erase h)).setHash c bid none

/-- A block goes to the front of its free list without a hash, to the back with one. -/
def pushFree (c : C) (bid : ℕ) : JengaBlockPool C H :=
  match s.blockHash c bid with
  | none => s.setFreeLittle c (bid :: s.freeLittleBlocks c)
  | some _ => s.setFreeLittle c (s.freeLittleBlocks c ++ [bid])

/-- `free_huge_blocks.remove(huge_block)` and the parked count of its type, when it is parked. -/
def unpark (huge : ℕ) : JengaBlockPool C H :=
  if huge ∈ s.freeHugeBlocks then
    let s' := { s with freeHugeBlocks := s.freeHugeBlocks.erase huge }
    match s.littleBlockType huge with
    | none => s'
    | some c => s'.addParked c (-1)
  else s

def claimHugeBlock (huge : ℕ) (c : C) : Except (PoolError C) (JengaBlockPool C H) :=
  if s.hugeRefCnt g huge ≠ 0 then .error (.assertion "")
  else
    let prevType := s.littleBlockType huge
    let s := s.unpark huge
    if prevType = some c then .ok s
    else
      let s := match prevType with
        | none => s
        | some old => (g.littles old huge).foldl (fun s b => s.uncommitBlock old b) s
      let s := { s with littleBlockType := update s.littleBlockType huge (some c) }
      .ok ((g.littles c huge).reverse.foldl (fun s b => s.pushFree c b) s)

/-- `_prefer_claim_huge`: an untyped huge block at the front beats evicting a commit. -/
def preferClaimHuge (c : C) : Bool :=
  match s.freeLittleBlocks c, s.freeHugeBlocks with
  | bid :: _, huge :: _ => (s.blockHash c bid).isSome && (s.littleBlockType huge).isNone
  | _, _ => false

/-- Take the front huge block for `c`: from another cache its little blocks leave that free list. -/
def claimFront (c : C) : Except (PoolError C) (JengaBlockPool C H) :=
  match s.freeHugeBlocks with
  | [] => .error (.insufficientBlocks c)
  | huge :: rest =>
    let s := { s with freeHugeBlocks := rest }
    match s.littleBlockType huge with
    | none => s.claimHugeBlock g huge c
    | some old =>
      if old = c then .error (.assertion "")
      else
        let s := s.addParked old (-1)
        let s := s.setFreeLittle old ((s.freeLittleBlocks old).diff (g.littles old huge))
        s.claimHugeBlock g huge c

/-- `popleft` from the free list of `c`, and what `alloc_block` does with that block. -/
def takeFront (c : C) : Except (PoolError C) (ℕ × JengaBlockPool C H) :=
  match s.freeLittleBlocks c with
  | [] => .error (.valueError "No free blocks available")
  | bid :: rest =>
    let s := s.setFreeLittle c rest
    let huge := g.hugeOf c bid
    let s := if huge ∈ s.freeHugeBlocks then
        { s with freeHugeBlocks := s.freeHugeBlocks.erase huge }.addParked c (-1)
      else s
    let s := s.uncommitBlock c bid
    .ok (bid, s.setRefCnt c bid (s.refCnt c bid + 1))

def allocBlock (c : C) : Except (PoolError C) (ℕ × JengaBlockPool C H) :=
  if s.freeLittleBlocks c = [] ∨ s.preferClaimHuge c then do
    let s ← s.claimFront g c
    s.takeFront g c
  else s.takeFront g c

def freeBlock (c : C) (bid : ℕ) : Except (PoolError C) (JengaBlockPool C H) :=
  if bid = 0 then .ok s
  else if s.refCnt c bid = 0 then .error (.assertion "")
  else
    let s := s.setRefCnt c bid (s.refCnt c bid - 1)
    if s.refCnt c bid ≠ 0 then .ok s
    else
      let s := s.pushFree c bid
      let huge := g.hugeOf c bid
      if s.hugeRefCnt g huge ≠ 0 then .ok s
      else if s.littleBlockType huge ≠ some c then .error (.assertion "")
      else .ok { s.addParked c 1 with freeHugeBlocks := s.freeHugeBlocks ++ [huge] }

def touch (c : C) (bid : ℕ) : Except (PoolError C) (JengaBlockPool C H) :=
  if bid = 0 then .ok s
  else
    let huge := g.hugeOf c bid
    if s.littleBlockType huge ≠ some c then .error (.assertion "")
    else if s.refCnt c bid ≠ 0 then .ok (s.setRefCnt c bid (s.refCnt c bid + 1))
    else do
      let s ← if huge ∈ s.freeHugeBlocks then s.claimHugeBlock g huge c else .ok s
      let s := s.setFreeLittle c ((s.freeLittleBlocks c).erase bid)
      return s.setRefCnt c bid (s.refCnt c bid + 1)

def commitIntoPrefixCache (h : H) (c : C) (bid : ℕ) : Except (PoolError C) (JengaBlockPool C H) :=
  if bid = 0 then .error (.assertion "Null blocks should not be committed")
  else if s.blockHash c bid ≠ none then .error (.assertion "")
  else if hnew : h ∈ (s.prefixCaches c).entries.map Prod.fst then .error (.assertion "")
  else .ok ((s.setPrefixCache c ((s.prefixCaches c).insertNew h bid hnew)).setHash c bid (some h))

/-- `get_or_commit_into_prefix_cache`, with the twin it returns. -/
def getOrCommitIntoPrefixCache (h : H) (c : C) (bid : ℕ) : Except (PoolError C) (Option ℕ × JengaBlockPool C H) :=
  if bid = 0 then .error (.assertion "Null blocks should not be committed")
  else
    match (s.prefixCaches c).get? h with
    | some twin =>
      if bid = twin then .ok (none, s)
      else do
        let s ← s.touch g c twin
        if s.blockHash c bid ≠ none then throw (.assertion "")
        let s ← s.freeBlock g c bid
        return (some twin, s)
    | none => do
      let s ← s.commitIntoPrefixCache h c bid
      return (none, s)

/-- The commits of a cache that no request holds, in order. -/
def unreferenced (c : C) : List (H × ℕ) :=
  (s.prefixCaches c).entries.filter fun e => s.refCnt c e.2 = 0

/-- `reset_prefix_cache`: drop the commits no request holds. -/
def resetPrefixCache : JengaBlockPool C H :=
  { s with
    blockHash := fun c bid =>
      if bid ∈ (s.unreferenced c).map Prod.snd then none else s.blockHash c bid
    prefixCaches := fun c => (s.prefixCaches c).filter fun e => s.refCnt c e.2 ≠ 0 }

/-- The counts `reset_prefix_cache` returns. -/
def purged (c : C) : ℕ := (s.unreferenced c).length

def numFreeBlocks (c : C) : ℤ :=
  ((s.freeHugeBlocks.length : ℤ) - s.parkedAndTyped c) * g.cacheRatios c +
    (s.freeLittleBlocks c).length

end JengaBlockPool

end MojoProse.KvCache
