import Mathlib.Data.Finset.Basic
import MojoProse.Schemes.Linked
import MojoProse.Schemes.Run

/-! `_FreeKVCacheBlockQueue` (`block_utils.py`): the free blocks as a list that is threaded through the blocks. A block is
    its id, by which `==` tells two blocks apart; the state has the links of all blocks. -/

namespace MojoProse.KvCache

open Schemes Function List

inductive QueueFault where
  /-- `ValueError("No free blocks available")` -/
  | noFreeBlocks
  /-- `KeyError`, from `free_blocks.remove` -/
  | keyError
  | assertion
  deriving DecidableEq

/-- `_FreeKVCacheBlockQueue`, with `prev_free_block` and `next_free_block` of every block. -/
structure FreeBlockQueue (Bid : Type) where
  freeListHead : Option Bid
  freeListTail : Option Bid
  prev : Bid → Option Bid
  next : Bid → Option Bid
  numFreeBlocks : ℤ
  freeBlocks : Finset Bid

namespace FreeBlockQueue

variable {Bid : Type} [DecidableEq Bid]

/-- The loop of `__init__`; `before` is `blocks[i - 1]`, if `i > 0`. -/
def initLinks (before : Option Bid) (prev next : Bid → Option Bid) :
    List Bid → (Bid → Option Bid) × (Bid → Option Bid)
  | [] => (prev, next)
  | block :: rest =>
    initLinks (some block) (if before.isSome then update prev block before else prev)
      (if rest.head?.isSome then update next block rest.head? else next) rest

/-- `__init__`, on blocks whose links are as their own constructor sets them. -/
def init (blocks : List Bid) : FreeBlockQueue Bid :=
  let (prev, next) := initLinks none (fun _ => none) (fun _ => none) blocks
  { freeListHead := blocks.head?, freeListTail := blocks.getLast?, prev, next
    numFreeBlocks := blocks.length, freeBlocks := blocks.toFinset }

variable (q : FreeBlockQueue Bid) (block : Bid)

def remove : Except QueueFault (FreeBlockQueue Bid) :=
  let next := link q.next (q.prev block) (q.next block)
  let prev := link q.prev (next block) (q.prev block)
  if block ∈ q.freeBlocks then
    pure
      { freeListHead := if some block = q.freeListHead then next block else q.freeListHead
        freeListTail := if some block = q.freeListTail then prev block else q.freeListTail
        prev := update prev block none, next := update next block none
        numFreeBlocks := q.numFreeBlocks - 1, freeBlocks := q.freeBlocks.erase block }
  else throw .keyError

def popleft : Except QueueFault (Bid × FreeBlockQueue Bid) :=
  match q.freeListHead with
  | none => throw .noFreeBlocks
  | some block => do pure (block, ← q.remove block)

def append : Except QueueFault (FreeBlockQueue Bid) :=
  let put (q : FreeBlockQueue Bid) := { q with
    next := update q.next block none, numFreeBlocks := q.numFreeBlocks + 1, freeBlocks := insert block q.freeBlocks }
  match q.freeListTail with
  | some tail => pure <| put { q with
      next := update q.next tail (some block), prev := update q.prev block (some tail), freeListTail := some block }
  | none =>
    if q.freeListHead = none then pure <| put { q with freeListHead := some block, freeListTail := some block }
    else throw .assertion

/-- The queue read from its other end. -/
def flip : FreeBlockQueue Bid :=
  { q with freeListHead := q.freeListTail, freeListTail := q.freeListHead, prev := q.next, next := q.prev }

/-- `append` at the other end: head and tail, and the two links, are exchanged. -/
def appendleft : Except QueueFault (FreeBlockQueue Bid) := flip <$> q.flip.append block

/-- Both ends, the count and the ids are those of the list. -/
structure Refines (q : FreeBlockQueue Bid) (l : List Bid) : Prop where
  forward : Threaded q.freeListHead q.next l
  backward : Threaded q.freeListTail q.prev l.reverse
  count : q.numFreeBlocks = l.length
  ids : q.freeBlocks = l.toFinset

variable {q block} {l : List Bid}

theorem Refines.flip (h : Refines q l) : Refines q.flip l.reverse := by
  refine ⟨h.backward, ?_, ?_, ?_⟩
  · rw [reverse_reverse]
    exact h.forward
  · rw [length_reverse]
    exact h.count
  · rw [toFinset_reverse]
    exact h.ids

theorem Refines.remove (h : Refines q l) (hmem : block ∈ l) :
    ∃ q', q.remove block = .ok q' ∧ Refines q' (l.erase block) := by
  have hcount : q.numFreeBlocks - 1 = (l.erase block).length := by
    rw [h.count, length_erase_of_mem hmem]
    have hpos := length_pos_of_mem hmem
    omega
  have hids : q.freeBlocks.erase block = (l.erase block).toFinset := by
    ext a
    simp [h.ids, h.forward.nodup.mem_erase_iff]
  obtain ⟨l₁, l₂, hl₁, rfl, herase⟩ := exists_erase_eq hmem
  have hback := h.backward
  rw [reverse_append, reverse_cons, append_assoc, singleton_append] at hback
  obtain ⟨hnext, hnext', hforward⟩ := h.forward.unlink
  obtain ⟨hprev, hprev', hbackward⟩ := hback.unlink
  rw [reverse_reverse] at hprev' hbackward
  simp only [FreeBlockQueue.remove]
  rw [hprev, hnext, hnext', hprev', if_pos (by simp [h.ids])]
  rw [herase] at hcount hids ⊢
  exact ⟨_, rfl, hforward, reverse_append ▸ hbackward, hcount, hids⟩

theorem Refines.popleft (h : Refines q l) : match l with
    | [] => q.popleft = .error .noFreeBlocks
    | block :: l => ∃ q', q.popleft = .ok (block, q') ∧ Refines q' l := by
  rw [FreeBlockQueue.popleft, h.forward.first]
  cases l with
  | nil => rfl
  | cons block l =>
    obtain ⟨q', hq', href⟩ := h.remove mem_cons_self
    rw [erase_cons_head] at href
    exact ⟨q', by simp only [head?_cons]; rw [hq']; rfl, href⟩

theorem Refines.append (h : Refines q l) (hnew : block ∉ l) :
    ∃ q', q.append block = .ok q' ∧ Refines q' (l ++ [block]) := by
  have hids : insert block q.freeBlocks = (l ++ [block]).toFinset := by
    ext a
    simp [h.ids, or_comm]
  have hcount : q.numFreeBlocks + 1 = (l ++ [block]).length := by simp [h.count]
  have hforward := h.forward.concat hnew
  have hbackward := h.backward.cons (mem_reverse.not.2 hnew)
  rw [← reverse_concat] at hbackward
  rw [← h.backward.first] at hforward
  rw [FreeBlockQueue.append]
  cases htail : q.freeListTail with
  | some tail =>
    rw [htail] at hforward hbackward
    have hhead : q.freeListHead.or (some block) = q.freeListHead := by
      cases l with
      | nil => cases htail.symm.trans h.backward.first
      | cons b l => rw [h.forward.first]; rfl
    rw [hhead] at hforward
    exact ⟨_, rfl, hforward, hbackward, hcount, hids⟩
  | none =>
    have hback := h.backward
    rw [htail] at hforward hback
    obtain ⟨hnil, hsingle⟩ := hback.single block
    obtain rfl := reverse_eq_nil_iff.1 hnil
    have hhead : q.freeListHead = none := h.forward.first
    rw [hhead] at hforward
    simp only [if_pos hhead]
    exact ⟨_, rfl, hforward, hsingle, hcount, hids⟩

theorem Refines.appendleft (h : Refines q l) (hnew : block ∉ l) :
    ∃ q', q.appendleft block = .ok q' ∧ Refines q' (block :: l) := by
  obtain ⟨q', hq', href⟩ := h.flip.append (mem_reverse.not.2 hnew)
  refine ⟨q'.flip, by rw [FreeBlockQueue.appendleft, hq']; rfl, ?_⟩
  simpa using href.flip

theorem initLinks_prev {before : Option Bid} {prev next : Bid → Option Bid} {done blocks : List Bid}
    (h : Threaded before prev done.reverse) (hnd : (done ++ blocks).Nodup) :
    (initLinks before prev next blocks).1 = follow (done ++ blocks).reverse := by
  induction blocks generalizing before prev next done with
  | nil => rw [append_nil]; exact h.links
  | cons block rest ih =>
    obtain ⟨hnot, -⟩ := nodup_cons.1 (nodup_middle.1 hnd)
    have hturn := h.cons (a := block) fun hmem => hnot (mem_append_left _ (mem_reverse.1 hmem))
    rw [← singleton_append, ← append_assoc] at hnd ⊢
    refine ih ?_ hnd
    rw [reverse_append, reverse_singleton, singleton_append]
    split
    · exact hturn
    · rename_i hnone
      obtain rfl : before = none := by simpa using hnone
      obtain ⟨hnil, hsingle⟩ := h.single block
      rw [hnil]
      exact hsingle

theorem initLinks_next {before : Option Bid} {prev next : Bid → Option Bid} {blocks : List Bid} (hnd : blocks.Nodup)
    (hnone : ∀ a ∈ blocks, next a = none) (a : Bid) :
    (initLinks before prev next blocks).2 a = if a ∈ blocks then follow blocks a else next a := by
  induction blocks generalizing before prev next with
  | nil => rfl
  | cons block rest ih =>
    obtain ⟨hnot, hnd⟩ := nodup_cons.1 hnd
    have hturn : ∀ b, (if rest.head?.isSome then update next block rest.head? else next) b =
        if b = block then rest.head? else next b := by
      intro b
      cases rest with
      | nil => simpa using fun h => h ▸ hnone block mem_cons_self
      | cons => exact update_apply ..
    rw [initLinks, ih hnd, hturn, follow]
    · rcases eq_or_ne a block with rfl | hne
      · simp [hnot]
      · simp [hne]
    · intro b hb
      rw [hturn, if_neg (ne_of_mem_of_not_mem hb hnot), hnone b (mem_cons_of_mem block hb)]

theorem refines_init {blocks : List Bid} (hnd : blocks.Nodup) : Refines (init blocks) blocks := by
  refine ⟨⟨hnd, rfl, ?_⟩, ⟨nodup_reverse.2 hnd, head?_reverse.symm, ?_⟩, rfl, rfl⟩
  · funext a
    refine (initLinks_next hnd (fun _ _ => rfl) a).trans ?_
    split
    · rfl
    · exact (follow_of_notMem ‹_›).symm
  · exact @initLinks_prev _ _ none _ _ [] blocks ⟨nodup_nil, rfl, rfl⟩ hnd

inductive Op (Bid : Type) where
  | popleft
  | remove (block : Bid)
  | append (block : Bid)
  | appendleft (block : Bid)

def Op.after (l : List Bid) : Op Bid → List Bid
  | .popleft => l.tail
  | .remove block => l.erase block
  | .append block => l ++ [block]
  | .appendleft block => block :: l

/-- Only a member is removed, and none is added again. -/
def Op.Allowed (l : List Bid) : Op Bid → Prop
  | .popleft => True
  | .remove block => block ∈ l
  | .append block | .appendleft block => block ∉ l

def step (q : FreeBlockQueue Bid) : Op Bid → Except QueueFault (FreeBlockQueue Bid)
  | .popleft => match q.popleft with
    | .ok (_, q) => pure q
    -- raised before anything is written
    | .error .noFreeBlocks => pure q
    | .error fault => throw fault
  | .remove block => q.remove block
  | .append block => q.append block
  | .appendleft block => q.appendleft block

theorem Refines.step (h : Refines q l) {op : Op Bid} (hop : op.Allowed l) :
    ∃ q', q.step op = .ok q' ∧ Refines q' (op.after l) := by
  cases op with
  | popleft =>
    have hpop := h.popleft
    rw [FreeBlockQueue.step]
    cases l with
    | nil => exact ⟨q, by rw [hpop]; rfl, h⟩
    | cons block l =>
      obtain ⟨q', hq', href⟩ := hpop
      exact ⟨q', by rw [hq']; rfl, href⟩
  | remove block => exact h.remove hop
  | append block => exact h.append hop
  | appendleft block => exact h.appendleft hop

theorem Refines.run (h : Refines q l) {ops : List (Op Bid)} (hops : AllowedRun Op.Allowed Op.after l ops) :
    ∃ q', ops.foldlM FreeBlockQueue.step q = .ok q' ∧ Refines q' (ops.foldl Op.after l) := by
  induction ops generalizing q l with
  | nil => exact ⟨q, rfl, h⟩
  | cons op ops ih =>
    obtain ⟨q', hq', href⟩ := h.step hops.1
    rw [foldlM_cons, hq']
    exact ih href hops.2

/-- After any calls the links of the queue, read from either end, are those of the list. -/
theorem free_queue_refines_list (blocks : List Bid) (hnd : blocks.Nodup) (ops : List (Op Bid))
    (hops : AllowedRun Op.Allowed Op.after blocks ops) : ∃ q, ops.foldlM step (init blocks) = .ok q ∧
      Walks q.next q.freeListHead (ops.foldl Op.after blocks) ∧
      Walks q.prev q.freeListTail (ops.foldl Op.after blocks).reverse ∧
      q.numFreeBlocks = (ops.foldl Op.after blocks).length ∧ q.freeBlocks = (ops.foldl Op.after blocks).toFinset ∧
      ∀ block ∉ ops.foldl Op.after blocks, q.prev block = none ∧ q.next block = none := by
  obtain ⟨q, hq, h⟩ := (refines_init hnd).run hops
  refine ⟨q, hq, h.forward.walks, h.backward.walks, h.count, h.ids, ?_⟩
  intro block hnot
  rw [h.backward.links, h.forward.links]
  exact ⟨follow_of_notMem (mem_reverse.not.2 hnot), follow_of_notMem hnot⟩

theorem free_queue_of_three : ∃ q, [.remove 1, .append 1, .popleft].foldlM step (init [0, 1, 2]) = .ok q ∧
    Walks q.next q.freeListHead [2, 1] := by
  obtain ⟨q, hq, hwalk, -⟩ := free_queue_refines_list [0, 1, 2] (by decide) [.remove 1, .append 1, .popleft]
    ⟨by simp [Op.Allowed], by simp [Op.Allowed, Op.after], trivial, trivial⟩
  exact ⟨q, hq, hwalk⟩

end FreeBlockQueue

end MojoProse.KvCache
