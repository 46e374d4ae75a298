import Mathlib.Algebra.Order.Group.Nat
import Mathlib.Data.Nat.Bitwise
import MojoProse.Schemes.Run

/-! The lock-free ring buffer (`LockFreeRingBuffer.h`): the answers "full" and "empty", and the order of the items.

    Threads interleave at single accesses. Each call compares two counters that it loads at different moments, so an
    answer is genuine if what was loaded first still stands when it is compared. -/

namespace MojoProse.AsyncRT

open Schemes Function

inductive Counter where
  | readIndex | writeIndex | consumed | published
  deriving DecidableEq

inductive Call where
  | enqueue | dequeue

namespace Call

/-- The counter that the call claims its slot from. -/
def index : Call → Counter
  | enqueue => .writeIndex
  | dequeue => .readIndex

/-- The counter that says how far the claims may go. -/
def limit : Call → Counter
  | enqueue => .consumed
  | dequeue => .published

/-- The counter that follows the claims, in their order. -/
def done : Call → Counter
  | enqueue => .published
  | dequeue => .consumed

/-- `curWriteIndex - curConsumed >= size` in `uint64_t`, and `curPublished <= curReadIndex`. -/
def refuses (size lim cur : ℕ) : Call → Bool
  | enqueue => size ≤ (cur + 2 ^ 64 - lim) % 2 ^ 64
  | dequeue => lim ≤ cur

end Call

/-- The access that a thread makes next, with the local variables it has then. -/
inductive Pc where
  | idle
  | loadLimit
  | loadIndex (lim : ℕ)
  | claim (cur : ℕ)
  | recheck (cur : ℕ)
  | slot (cur : ℕ)
  | wait (cur : ℕ)
  | store (cur : ℕ)
  | returned (ok : Bool)
  deriving DecidableEq

structure Thread (α : Type) where
  call : Call
  item : Option α
  pc : Pc

structure LockFreeRingBuffer (α : Type) where
  size : ℕ
  counter : Counter → ℕ
  buffer : ℕ → Option α
  thread : ℕ → Thread α

namespace LockFreeRingBuffer

variable {α : Type}

/-- The constructor, with `llvm::NextPowerOf2`. -/
def new (size : ℕ) : LockFreeRingBuffer α where
  size := if size = 0 then 1 else 2 ^ (size.log2 + 1)
  counter _ := 0
  buffer _ := none
  thread _ := ⟨.enqueue, none, .idle⟩

inductive Action (α : Type) where
  | call (i : ℕ) (call : Call) (item : Option α)
  | access (i : ℕ) (spurious : Bool)

def enqueue (i : ℕ) (item : α) : Action α := .call i .enqueue (some item)

def dequeue (i : ℕ) : Action α := .call i .dequeue none

/-- One access of thread `i`. A weak compare-exchange may fail `spurious`ly, and has loaded the index when it fails. -/
def access (s : LockFreeRingBuffer α) (i : ℕ) (spurious : Bool) : LockFreeRingBuffer α :=
  let t := s.thread i
  let goto (pc : Pc) := { s with thread := update s.thread i { t with pc } }
  match t.pc with
  | .loadLimit => goto (.loadIndex (s.counter t.call.limit))
  | .loadIndex lim =>
    let cur := s.counter t.call.index
    goto (if t.call.refuses s.size lim cur then .returned false else .claim cur)
  | .claim cur =>
    if s.counter t.call.index = cur ∧ spurious = false then
      { goto (.slot cur) with counter := update s.counter t.call.index (cur + 1) }
    else goto (.recheck (s.counter t.call.index))
  | .recheck cur =>
    goto (if t.call.refuses s.size (s.counter t.call.limit) cur then .returned false else .claim cur)
  | .slot cur =>
    let k := cur &&& (s.size - 1)
    let moved := match t.call with
      | .enqueue => (t.item, none)
      | .dequeue => (none, s.buffer k)
    { s with
      buffer := update s.buffer k moved.1
      thread := update s.thread i { t with item := moved.2, pc := .wait cur } }
  | .wait cur => goto (if s.counter t.call.done = cur then .store cur else .wait cur)
  | .store cur => { goto (.returned true) with counter := update s.counter t.call.done (cur + 1) }
  | .idle | .returned _ => s

/-- A thread makes one call after another. -/
def step (s : LockFreeRingBuffer α) : Action α → LockFreeRingBuffer α
  | .call i call item =>
    match (s.thread i).pc with
    | .idle | .returned _ => { s with thread := update s.thread i ⟨call, item, .loadLimit⟩ }
    | _ => s
  | .access i spurious => s.access i spurious

/-- The indices do not reach 2^64. -/
abbrev Allowed (s : LockFreeRingBuffer α) (a : Action α) : Prop := (s.step a).counter .writeIndex < 2 ^ 64

/-! ### The invariant -/

/-- How far the claims of a call may be ahead of its limit. -/
def slack (size : ℕ) : Call → ℕ
  | .enqueue => size
  | .dequeue => 0

/-- What holds of the local variables of a thread. -/
def Ok (size : ℕ) (n : Counter → ℕ) (t : Thread α) : Prop :=
  match t.pc with
  | .loadIndex lim => lim ≤ n t.call.limit
  | .claim cur => cur < n t.call.limit + slack size t.call
  | .recheck cur => cur ≤ n t.call.index
  | .slot cur | .wait cur => cur < n t.call.index
  | .store cur => n t.call.done = cur ∧ cur < n t.call.index
  | _ => True

/-- The index that a thread has claimed and not counted yet. -/
def claimed (t : Thread α) : Option (Call × ℕ) :=
  match t.pc with
  | .slot cur | .wait cur | .store cur => some (t.call, cur)
  | _ => none

structure Inv (size : ℕ) (n : Counter → ℕ) (thread : ℕ → Thread α) : Prop where
  counts : ∀ c : Call, n c.done ≤ n c.index ∧ n c.index ≤ n c.limit + slack size c
  small : n .writeIndex < 2 ^ 64
  ok : ∀ i, Ok size n (thread i)
  apart : ∀ i j x, claimed (thread i) = some x → claimed (thread j) = some x → i = j

variable {size i v : ℕ} {n m : Counter → ℕ} {thread : ℕ → Thread α} {t : Thread α} {c : Call}

theorem Ok.mono (h : Ok size n t) (hle : n ≤ m) (hdone : ∀ cur, t.pc = .store cur → m t.call.done = n t.call.done) :
    Ok size m t := by
  obtain ⟨call, item, pc⟩ := t
  have hlim : n call.limit ≤ m call.limit := hle _
  have hidx : n call.index ≤ m call.index := hle _
  cases pc with
  | store cur => exact ⟨(hdone cur rfl).trans h.1, h.2.trans_le hidx⟩
  | _ => first | trivial | (simp only [Ok] at h ⊢; omega)

theorem Ok.lt (h : Ok size n t) (hclaim : claimed t = some (c, v)) : v < n c.index := by
  obtain ⟨call, item, pc⟩ := t
  cases pc <;> cases hclaim
  · exact h
  · exact h
  · exact h.2

section

variable (h : Inv size n thread)
include h

theorem Inv.move
    (hcounts : ∀ c : Call, m c.done ≤ m c.index ∧ m c.index ≤ m c.limit + slack size c) (hsmall : m .writeIndex < 2 ^ 64)
    (hok : Ok size m t) (hrest : ∀ j ≠ i, Ok size m (thread j))
    (hclaim : ∀ j ≠ i, ∀ x, claimed (thread j) = some x → claimed t ≠ some x) : Inv size m (update thread i t) := by
  refine ⟨hcounts, hsmall, (forall_update_iff thread fun _ => Ok size m).mpr ⟨hok, hrest⟩, fun j k x hj hk => ?_⟩
  rcases eq_or_ne j i with rfl | hji
  · by_contra hne
    rw [update_self] at hj
    rw [update_of_ne (Ne.symm hne)] at hk
    exact hclaim k (Ne.symm hne) x hk hj
  · rw [update_of_ne hji] at hj
    rcases eq_or_ne k i with rfl | hki
    · rw [update_self] at hk
      exact absurd hk (hclaim j hji x hj)
    · rw [update_of_ne hki] at hk
      exact h.apart j k x hj hk

/-- A step that claims nothing and counts nothing. -/
theorem Inv.goto (hok : Ok size n t)
    (hclaim : ∀ x, claimed t = some x → claimed (thread i) = some x) : Inv size n (update thread i t) :=
  h.move h.counts h.small hok (fun j _ => h.ok j) fun j hne x hj ht => hne (h.apart j i x hj (hclaim x ht))

theorem Inv.consumed_le : n .consumed ≤ n .writeIndex :=
  ((h.counts .dequeue).1.trans (h.counts .dequeue).2).trans (h.counts .enqueue).1

/-- An index that is not refused may be claimed; if one is refused, all are claimed. -/
theorem Inv.refuses {lim cur : ℕ} (hlim : lim ≤ n c.limit) (hcur : cur ≤ n c.index) :
    (c.refuses size lim cur = false → cur < n c.limit + slack size c) ∧
      (c.refuses size lim cur = true → n c.limit = lim → (c = .enqueue → lim ≤ cur) →
        n c.index = n c.limit + slack size c) := by
  have hsmall := h.small
  have hle := (h.counts c).2
  cases c <;> simp only [Call.refuses, Call.limit, Call.index, slack, decide_eq_true_eq, decide_eq_false_iff_not,
    forall_const] at * <;> omega

theorem Inv.claim (hcall : (thread i).call = c) (hv : n c.index = v)
    (hlt : v < n c.limit + slack size c) (hsmall : update n c.index (v + 1) .writeIndex < 2 ^ 64) :
    Inv size (update n c.index (v + 1)) (update thread i { thread i with pc := .slot v }) := by
  have hle : n ≤ update n c.index (v + 1) := le_update_self_iff.mpr (by omega)
  have hdone : ∀ d : Call, update n c.index (v + 1) d.done = n d.done := by
    intro d
    cases c <;> cases d <;> rfl
  refine h.move (fun d => ⟨?_, ?_⟩) hsmall ?_ (fun j _ => (h.ok j).mono hle fun _ _ => hdone _) fun j _ x hj ht => ?_
  · rw [hdone]
    exact (h.counts d).1.trans (hle _)
  · have := (h.counts d).2
    cases c <;> cases d <;> first | exact this | exact hlt
  · simp [Ok, hcall]
  · cases ht
    have := (h.ok j).lt hj
    rw [hcall] at this
    omega

theorem Inv.count (hcall : (thread i).call = c) (hpc : (thread i).pc = .store v)
    (hsmall : update n c.done (v + 1) .writeIndex < 2 ^ 64) :
    Inv size (update n c.done (v + 1)) (update thread i { thread i with pc := .returned true }) := by
  have hstore : ∀ {j w}, (thread j).call = c → (thread j).pc = .store w →
      (n c.done = w ∧ w < n c.index) ∧ claimed (thread j) = some (c, w) := by
    intro j w hj hw
    have hok := h.ok j
    rw [Ok, hw, hj] at hok
    exact ⟨hok, by rw [claimed, hw, hj]⟩
  obtain ⟨⟨hv, hlt⟩, hi⟩ := hstore hcall hpc
  have hle : n ≤ update n c.done (v + 1) := le_update_self_iff.mpr (by omega)
  refine h.move (fun d => ⟨?_, ?_⟩) hsmall trivial (fun j hne => (h.ok j).mono hle fun w hw => ?_) fun _ _ _ _ => nofun
  · have := (h.counts d).1
    cases c <;> cases d <;> first | exact this | exact hlt
  · have := (h.counts d).2.trans (Nat.add_le_add_right (hle _) _)
    cases c <;> cases d <;> exact this
  · -- of the calls of one kind, only this one is past its wait
    have hother : (thread j).call ≠ c := by
      intro hj
      obtain ⟨hw', hclaim⟩ := hstore hj hw
      rw [← hw'.1, hv] at hclaim
      exact hne (h.apart j i _ hclaim hi)
    cases c <;> cases hj : (thread j).call <;> first | rfl | exact absurd hj hother

end

variable {s : LockFreeRingBuffer α} {spurious : Bool}

theorem Inv.access (h : Inv s.size s.counter s.thread) (hsmall : (s.access i spurious).counter .writeIndex < 2 ^ 64) :
    Inv (s.access i spurious).size (s.access i spurious).counter (s.access i spurious).thread := by
  have hok := h.ok i
  rw [Ok] at hok
  generalize hs' : s.access i spurious = s' at hsmall ⊢
  cases hpc : (s.thread i).pc <;> simp only [LockFreeRingBuffer.access, hpc] at hs' hok
  case idle => exact hs' ▸ h
  case returned => exact hs' ▸ h
  case loadLimit =>
    subst hs'
    exact h.goto le_rfl nofun
  case loadIndex lim =>
    subst hs'
    split_ifs with hr
    · exact h.goto trivial nofun
    · exact h.goto ((h.refuses hok le_rfl).1 (by simpa using hr)) nofun
  case recheck cur =>
    subst hs'
    split_ifs with hr
    · exact h.goto trivial nofun
    · exact h.goto ((h.refuses le_rfl hok).1 (by simpa using hr)) nofun
  case claim cur =>
    split_ifs at hs' with hcas
    · subst hs'
      exact h.claim rfl hcas.1 hok hsmall
    · subst hs'
      exact h.goto le_rfl nofun
  case slot cur =>
    subst hs'
    exact h.goto hok fun x hx => by rwa [claimed, hpc]
  case wait cur =>
    subst hs'
    split_ifs with hdone
    · exact h.goto ⟨hdone, hok⟩ fun x hx => by rwa [claimed, hpc]
    · exact h.goto hok fun x hx => by rwa [claimed, hpc]
  case store cur =>
    subst hs'
    exact h.count rfl hpc hsmall

theorem Inv.step (a : Action α) (h : Inv s.size s.counter s.thread) (ha : Allowed s a) :
    Inv (s.step a).size (s.step a).counter (s.step a).thread := by
  cases a with
  | access i spurious => exact h.access ha
  | call i call item =>
    rw [LockFreeRingBuffer.step]
    split
    · exact h.goto trivial nofun
    · exact h.goto trivial nofun
    · exact h

/-! ### The answers -/

/-- `writeIndex - consumed = size`, and `published = readIndex`. -/
abbrev Exhausted (s : LockFreeRingBuffer α) (c : Call) : Prop := s.counter c.index = s.counter c.limit + slack s.size c

/-- What a call loaded first stands when it is compared; at a second comparison the index is not behind `consumed`. -/
def Stands (s : LockFreeRingBuffer α) (t : Thread α) : Prop :=
  match t.pc with
  | .loadIndex lim => s.counter t.call.limit = lim
  | .recheck cur => t.call = .enqueue → s.counter .consumed ≤ cur
  | _ => True

/-- **Full and empty answers.** A call that answers so by its next access answers at a moment where it is so, if what it
    loaded first stands. -/
theorem refusal_genuine (size : ℕ) (s : LockFreeRingBuffer α) (hs : Reachable (new size) Allowed step s) (i : ℕ)
    (spurious : Bool) (hpending : (s.thread i).pc ≠ .returned false)
    (hanswer : ((s.access i spurious).thread i).pc = .returned false) (hstands : Stands s (s.thread i)) :
    Exhausted s (s.thread i).call := by
  let I (s : LockFreeRingBuffer α) : Prop := Inv s.size s.counter s.thread
  have h : I s := by
    refine hs.invariant ?_ fun s a (h : Inv ..) ha => h.step a ha
    exact ⟨fun _ => ⟨le_rfl, Nat.zero_le _⟩, Nat.two_pow_pos 64, fun _ => trivial, fun _ _ _ => nofun⟩
  have hok := h.ok i
  rw [Ok] at hok
  rw [Stands] at hstands
  cases hpc : (s.thread i).pc <;> rw [hpc] at hok hstands <;>
    simp only [LockFreeRingBuffer.access, hpc, update_self, reduceCtorEq] at hanswer
  case loadIndex lim =>
    refine (h.refuses hok le_rfl).2 (by_contra fun hr => by simp [hr] at hanswer) hstands fun hc => ?_
    rw [hc] at hok ⊢
    exact hok.trans h.consumed_le
  case recheck cur =>
    refine (h.refuses le_rfl hok).2 (by_contra fun hr => by simp [hr] at hanswer) rfl fun hc => ?_
    rw [hc]
    exact hstands hc
  case claim cur => split_ifs at hanswer <;> simp at hanswer
  case wait cur => split_ifs at hanswer
  case returned ok => exact absurd (hpc.trans hanswer) hpending
  case store cur => cases hanswer

def whole (calls : List (Action ℕ)) : List (Action ℕ) := calls.flatMap (· :: List.replicate 6 (.access 1 false))

/-- A buffer of two slots, full when thread 0 compares. -/
def full : LockFreeRingBuffer ℕ :=
  (whole [enqueue 1 7, enqueue 1 8] ++ [enqueue 0 9, .access 0 false]).foldl step (new 1)

theorem refusal_genuine_full : Exhausted full .enqueue :=
  refusal_genuine 1 full (.run _ .start (by decide +kernel)) 0 false (by decide +kernel) (by decide +kernel) rfl

/-- Thread 0 loads its limit, thread 1 makes some calls, and thread 0 loads the index. -/
def overtaken (call : Action ℕ) (calls : List (Action ℕ)) : List (Action ℕ) :=
  [call, .access 0 false] ++ whole calls ++ [.access 0 false]

/-- The call of thread 0 is refused, and at no moment for a reason. -/
abbrev Spurious (start : LockFreeRingBuffer ℕ) (run : List (Action ℕ)) (c : Call) : Prop :=
  ((run.foldl step start).thread 0).pc = .returned false ∧ ∀ s ∈ run.scanl step start, ¬Exhausted s c

/-- In a buffer of two slots that is never full, and in one that always has an unclaimed item. -/
theorem overtaken_spurious :
    Spurious (new 1) (overtaken (enqueue 0 9) [enqueue 1 7, dequeue 1, enqueue 1 8]) .enqueue ∧
      Spurious ((whole [enqueue 1 7]).foldl step (new 1)) (overtaken (dequeue 0) [enqueue 1 8, dequeue 1]) .dequeue := by
  decide +kernel

/-! ### The items -/

def Action.caller : Action α → ℕ
  | .call i .. | .access i _ => i

/-- A step, with the items that have claimed a write index, in the order of their claims. -/
def record (h : LockFreeRingBuffer α × List (Option α)) (a : Action α) : LockFreeRingBuffer α × List (Option α) :=
  (h.1.step a, if (h.1.step a).counter .writeIndex = h.1.counter .writeIndex then h.2
    else h.2 ++ [(h.1.thread a.caller).item])

/-- What the slot of an index holds. -/
abbrev held (size : ℕ) (buffer : ℕ → Option α) (v : ℕ) : Option α := buffer (v &&& (size - 1))

/-- The item of a thread that has claimed an index: in its hand, or in the slot. -/
def carried (slot : Option α) (t : Thread α) : Option α :=
  match t.pc, t.call with
  | .slot _, .enqueue | .wait _, .dequeue | .store _, .dequeue => t.item
  | _, _ => slot

/-- Every index that is not counted is claimed, and the items that have not been returned are where their indices say. -/
structure Stored (size : ℕ) (n : Counter → ℕ) (buffer : ℕ → Option α) (thread : ℕ → Thread α)
    (sent : List (Option α)) : Prop where
  inv : Inv size n thread
  pow : ∃ k, size = 2 ^ k
  length : sent.length = n .writeIndex
  claim : ∀ i c v, claimed (thread i) = some (c, v) →
    n c.done ≤ v ∧ sent[v]? = some (carried (held size buffer v) (thread i))
  covered : ∀ c v, n (Call.done c) ≤ v → v < n c.index → ∃ i, claimed (thread i) = some (c, v)
  ready : ∀ v, n .readIndex ≤ v → v < n .published → sent[v]? = some (held size buffer v)

variable {buffer : ℕ → Option α} {sent : List (Option α)}

section

variable (h : Stored size n buffer thread sent)
include h

theorem Stored.window (hclaim : claimed (thread i) = some (c, v)) :
    n .consumed ≤ v ∧ v < n .writeIndex ∧ (c = .enqueue ↔ n .published ≤ v) ∧ (c = .dequeue ↔ v < n .readIndex) := by
  have hlt := (h.inv.ok i).lt hclaim
  have hle := (h.claim i c v hclaim).1
  have hd := h.inv.counts .dequeue
  have he := h.inv.counts .enqueue
  cases c <;> simp only [Call.done, Call.index, Call.limit, slack, reduceCtorEq, true_iff, false_iff] at * <;> omega

/-- No two threads have claimed the same index, be it to write or to read. -/
theorem Stored.ne {j w : ℕ} {d : Call} (hclaim : claimed (thread i) = some (c, v)) (hne : j ≠ i)
    (hother : claimed (thread j) = some (d, w)) : w ≠ v := by
  rintro rfl
  have hcall : d = c := by
    have := h.window hclaim
    have := h.window hother
    cases c <;> cases d <;> simp_all
  exact hne (h.inv.apart j i _ hother (hcall ▸ hclaim))

/-- The slots of the indices in use are apart, since there are at most `size` of them. -/
theorem Stored.slot_ne (hclaim : claimed (thread i) = some (c, v)) {w : ℕ} (hle : n .consumed ≤ w)
    (hlt : w < n .writeIndex) (hne : w ≠ v) : w &&& (size - 1) ≠ v &&& (size - 1) := by
  intro heq
  obtain ⟨k, rfl⟩ := h.pow
  have hwin : n .writeIndex ≤ n .consumed + 2 ^ k := (h.inv.counts .enqueue).2
  have hv := h.window hclaim
  rw [Nat.and_two_pow_sub_one_eq_mod, Nat.and_two_pow_sub_one_eq_mod] at heq
  have hsub := Nat.sub_mod_eq_zero_of_mod_eq heq
  have hsub' := Nat.sub_mod_eq_zero_of_mod_eq heq.symm
  rw [Nat.mod_eq_of_lt (by omega)] at hsub hsub'
  omega

theorem Stored.move {sent' : List (Option α)} {buffer' : ℕ → Option α} (hinv : Inv size m (update thread i t))
    (hlength : sent'.length = m .writeIndex) (hsent : ∀ {v : ℕ} {x}, sent[v]? = some x → sent'[v]? = some x)
    (ht : ∀ c v, claimed t = some (c, v) → m c.done ≤ v ∧ sent'[v]? = some (carried (held size buffer' v) t))
    (hrest : ∀ j ≠ i, ∀ c v, claimed (thread j) = some (c, v) → n c.done ≤ v →
      m c.done ≤ v ∧ held size buffer' v = held size buffer v)
    (hcovered : ∀ c v, m (Call.done c) ≤ v → v < m c.index → claimed t ≠ some (c, v) →
      n c.done ≤ v ∧ v < n c.index ∧ claimed (thread i) ≠ some (c, v))
    (hready : ∀ v, m .readIndex ≤ v → v < m .published → sent[v]? = some (held size buffer' v)) :
    Stored size m buffer' (update thread i t) sent' := by
  refine ⟨hinv, h.pow, hlength, (forall_update_iff thread fun _ t => ∀ c v, claimed t = some (c, v) →
    m c.done ≤ v ∧ sent'[v]? = some (carried (held size buffer' v) t)).2 ⟨ht, fun j hj c v hc => ?_⟩,
    fun c v hle hlt => ?_, fun v hr hp => hsent (hready v hr hp)⟩
  · obtain ⟨hle, hitem⟩ := h.claim j c v hc
    obtain ⟨hle', hbuf⟩ := hrest j hj c v hc hle
    exact ⟨hle', by rw [hbuf, hsent hitem]⟩
  · by_cases ht : claimed t = some (c, v)
    · exact ⟨i, by rwa [update_self]⟩
    · obtain ⟨hle', hlt', hi⟩ := hcovered c v hle hlt ht
      obtain ⟨j, hj⟩ := h.covered c v hle' hlt'
      refine ⟨j, ?_⟩
      rwa [update_of_ne]
      rintro rfl
      exact hi hj

/-- A step that moves no item. -/
theorem Stored.goto (hinv : Inv size n (update thread i t)) (hclaim : claimed t = claimed (thread i))
    (hitem : ∀ slot, carried slot t = carried slot (thread i)) : Stored size n buffer (update thread i t) sent := by
  refine h.move hinv h.length id (fun c v hc => ?_) (fun _ _ _ _ _ hle => ⟨hle, rfl⟩)
    (fun c v hle hlt hne => ⟨hle, hlt, hclaim ▸ hne⟩) h.ready
  rw [hitem]
  exact h.claim i c v (hclaim ▸ hc)

/-- An item goes into its slot, or out of it. -/
theorem Stored.exchange (hclaim : claimed (thread i) = some (c, v)) {x : Option α} (ht : claimed t = some (c, v))
    (hinv : Inv size n (update thread i t)) (hitem : sent[v]? = some (carried x t)) :
    Stored size n (update buffer (v &&& (size - 1)) x) (update thread i t) sent := by
  have hv := h.window hclaim
  refine h.move hinv h.length id ?_ (fun j hj d w hw hle => ⟨hle, ?_⟩)
    (fun d w hle hlt hne => ⟨hle, hlt, hclaim ▸ ht ▸ hne⟩) fun w hr hp => ?_
  · rw [ht]
    rintro _ _ ⟨⟩
    exact ⟨(h.claim i c v hclaim).1, by rwa [held, update_self]⟩
  · exact update_of_ne (h.slot_ne hclaim (h.window hw).1 (h.window hw).2.1 (h.ne hclaim hj hw)) _ _
  · have hd : n .consumed ≤ n .readIndex := (h.inv.counts .dequeue).1
    have he : n .published ≤ n .writeIndex := (h.inv.counts .enqueue).1
    rw [h.ready w hr hp, held, held, update_of_ne]
    exact h.slot_ne hclaim (by omega) (by omega) (by cases c <;> simp at hv <;> omega)

/-- A call claims its index; an enqueue sends its item. -/
theorem Stored.claims (hcall : (thread i).call = c) (hpc : (thread i).pc = .claim v) (hv : n c.index = v) (hlt : v < n c.limit + slack size c)
    (hinv : Inv size (update n c.index (v + 1)) (update thread i { thread i with pc := .slot v })) :
    Stored size (update n c.index (v + 1)) buffer (update thread i { thread i with pc := .slot v })
      (if update n c.index (v + 1) .writeIndex = n .writeIndex then sent else sent ++ [(thread i).item]) := by
  have hle : ∀ d : Call, update n c.index (v + 1) d.done = n d.done := fun d => by cases c <;> cases d <;> rfl
  have hlen := h.length
  have hdone : n c.done ≤ v := hv ▸ (h.inv.counts c).1
  refine h.move hinv ?_ ?_ ?_ (fun _ _ d _ _ hle' => ⟨(hle d).trans_le hle', rfl⟩)
    (fun d w hle' hlt hne => ⟨hle d ▸ hle', ?_, by simp [claimed, hpc]⟩) fun w hr hp => h.ready w ?_ ?_
  · cases c <;> simp [Call.index, hlen, ← hv]
  · intro w x hw
    split_ifs
    · exact hw
    · rw [List.getElem?_append_left (List.getElem?_eq_some_iff.1 hw).1, hw]
  · rintro _ _ ⟨⟩
    rw [hle, hcall, carried, hcall]
    refine ⟨hdone, ?_⟩
    cases c with
    | enqueue => simp [Call.index, ← hv, ← hlen]
    | dequeue => simpa [Call.index] using h.ready v hv.le hlt
  · have hwv : (d, w) ≠ (c, v) := fun heq => hne (by rw [claimed, hcall, heq])
    cases c <;> cases d <;> simp [Call.index] at hlt hv hwv ⊢ <;> omega
  · cases c with
    | enqueue => exact hr
    | dequeue => exact hv ▸ Nat.le_of_succ_le hr
  · cases c <;> exact hp

/-- A call counts its index. -/
theorem Stored.counts (hcall : (thread i).call = c) (hpc : (thread i).pc = .store v) (hv : n c.done = v)
    (hinv : Inv size (update n c.done (v + 1)) (update thread i { thread i with pc := .returned true })) :
    Stored size (update n c.done (v + 1)) buffer (update thread i { thread i with pc := .returned true }) sent := by
  have hclaim : claimed (thread i) = some (c, v) := by rw [claimed, hpc, hcall]
  refine h.move hinv ?_ id nofun (fun j hj d w hw hle => ⟨?_, rfl⟩) (fun d w hle hlt _ => ?_) fun w hr hp => ?_
  · cases c <;> exact h.length
  · have hne := h.ne hclaim hj hw
    cases c <;> cases d <;> first | exact hle | exact lt_of_le_of_ne (hv ▸ hle) hne.symm
  · rw [hclaim]
    cases c <;> cases d <;> simp [Call.index, Call.done] at hle hlt hv ⊢ <;> omega
  · cases c with
    | dequeue => exact h.ready w hr hp
    | enqueue =>
      rcases Nat.lt_succ_iff_lt_or_eq.1 hp with hlt | rfl
      · exact h.ready w hr (hv ▸ hlt)
      · rw [(h.claim i _ w hclaim).2, carried, hpc, hcall]

end

theorem Stored.step (a : Action α) (h : Stored s.size s.counter s.buffer s.thread sent) (ha : Allowed s a) :
    Stored (s.step a).size (s.step a).counter (s.step a).buffer (s.step a).thread (record (s, sent) a).2 := by
  have hinv := h.inv.step a ha
  simp only [record]
  generalize hs' : s.step a = s' at hinv ⊢
  cases a with
  | call i call item =>
    simp only [LockFreeRingBuffer.step] at hs'
    split at hs' <;> subst hs' <;> rw [if_pos rfl]
    case h_3 => exact h
    all_goals exact h.goto hinv (by simp [claimed, *]) (by simp [carried, *])
  | access i spurious =>
    have hok := h.inv.ok i
    rw [Ok] at hok
    cases hpc : (s.thread i).pc <;> simp only [LockFreeRingBuffer.step, access, hpc] at hs' hok
    case claim v =>
      split_ifs at hs' with hcas <;> subst hs'
      · exact h.claims rfl hpc hcas.1 hok hinv
      · rw [if_pos rfl]
        exact h.goto hinv (by simp [claimed, hpc]) (by simp [carried, hpc])
    case slot v =>
      subst hs'
      have hclaim : claimed (s.thread i) = some ((s.thread i).call, v) := by rw [claimed, hpc]
      rw [if_pos rfl]
      refine h.exchange hclaim rfl hinv ((h.claim i _ v hclaim).2.trans ?_)
      simp only [carried, hpc]
      cases (s.thread i).call <;> rfl
    case store v =>
      subst hs'
      rw [if_pos (by cases (s.thread i).call <;> rfl)]
      exact h.counts rfl hpc hok.1 hinv
    all_goals
      subst hs'
      rw [if_pos rfl]
    case idle => exact h
    case returned => exact h
    case loadLimit => exact h.goto hinv (by simp [claimed, hpc]) (by simp [carried, hpc])
    all_goals
      refine h.goto hinv ?_ fun slot => ?_
      · simp only [claimed, hpc]
        split_ifs <;> rfl
      · simp only [carried, hpc]
        split_ifs <;> cases (s.thread i).call <;> rfl

theorem stored_of_reachable {h : LockFreeRingBuffer α × List (Option α)}
    (hs : Reachable (new size, []) (fun h a => Allowed h.1 a) record h) :
    Stored h.1.size h.1.counter h.1.buffer h.1.thread h.2 := by
  let I (h : LockFreeRingBuffer α × List (Option α)) : Prop := Stored h.1.size h.1.counter h.1.buffer h.1.thread h.2
  suffices I h from this
  refine hs.invariant ⟨⟨fun _ => ⟨le_rfl, Nat.zero_le _⟩, Nat.two_pow_pos 64, fun _ => trivial, fun _ _ _ => nofun⟩, ?_,
    rfl, nofun, nofun, nofun⟩ fun h a (hi : I h) ha => hi.step a ha
  simp only [new]
  split_ifs
  · exact ⟨0, rfl⟩
  · exact ⟨_, rfl⟩

/-- **First in, first out.** Under every interleaving the counters are in order, threads with a claim have slots of their
    own, and a dequeue finds and takes the item that claimed its index. -/
theorem dequeues_in_order (size : ℕ) (h : LockFreeRingBuffer α × List (Option α))
    (hs : Reachable (new size, []) (fun h a => Allowed h.1 a) record h) :
    (h.1.counter .consumed ≤ h.1.counter .readIndex ∧ h.1.counter .readIndex ≤ h.1.counter .published ∧
      h.1.counter .published ≤ h.1.counter .writeIndex ∧ h.1.counter .writeIndex ≤ h.1.counter .consumed + h.1.size) ∧
    h.2.length = h.1.counter .writeIndex ∧ ∀ i c v, claimed (h.1.thread i) = some (c, v) →
      (∀ j ≠ i, ∀ d w, claimed (h.1.thread j) = some (d, w) → w &&& (h.1.size - 1) ≠ v &&& (h.1.size - 1)) ∧
      (c = .dequeue → h.2[v]? = some (if (h.1.thread i).pc = .slot v then h.1.buffer (v &&& (h.1.size - 1))
        else (h.1.thread i).item)) := by
  have hi := stored_of_reachable hs
  have hd := hi.inv.counts .dequeue
  have he := hi.inv.counts .enqueue
  refine ⟨⟨hd.1, hd.2, he.1, he.2⟩, hi.length, fun i c v hclaim => ⟨fun j hj d w hw => ?_, ?_⟩⟩
  · exact hi.slot_ne hclaim (hi.window hw).1 (hi.window hw).2.1 (hi.ne hclaim hj hw)
  · rintro rfl
    rw [(hi.claim i _ v hclaim).2, carried]
    cases hpc : (h.1.thread i).pc <;> simp [claimed, hpc] at hclaim ⊢ <;> simp [hclaim]

/-- Thread 1 has sent 7, thread 0 has taken it. -/
def taken : LockFreeRingBuffer ℕ × List (Option ℕ) :=
  (whole [enqueue 1 7] ++ [dequeue 0] ++ List.replicate 4 (Action.access 0 false)).foldl record (new 1, [])

deriving instance DecidableEq for Call

theorem dequeues_in_order_taken : taken.2[0]? = some (some 7) :=
  (((dequeues_in_order 1 taken (.run _ .start (by decide +kernel))).2.2 0 .dequeue 0 (by decide +kernel)).2
    rfl).trans (by decide +kernel)

/-- **No deadlock.** While calls of one kind have claims, one of them counts its index by its next accesses, three at most,
    however the others stand. -/
theorem claim_completes (size : ℕ) (h : LockFreeRingBuffer α × List (Option α))
    (hs : Reachable (new size, []) (fun h a => Allowed h.1 a) record h) (i v : ℕ) (c : Call)
    (hclaim : claimed (h.1.thread i) = some (c, v)) : ∃ j k, k ≤ 3 ∧
      ((List.replicate k (.access j false)).foldl step h.1).counter c.done = h.1.counter c.done + 1 := by
  have hi := stored_of_reachable hs
  have hle := (hi.claim i c v hclaim).1
  obtain ⟨j, hj⟩ := hi.covered c _ le_rfl (hle.trans_lt ((hi.inv.ok i).lt hclaim))
  refine ⟨j, ?_⟩
  cases hpc : (h.1.thread j).pc <;> simp [claimed, hpc] at hj
  case slot => exact ⟨3, le_rfl, by simp [LockFreeRingBuffer.step, access, hpc, hj]⟩
  case wait => exact ⟨2, by simp, by simp [LockFreeRingBuffer.step, access, hpc, hj]⟩
  case store => exact ⟨1, by simp, by simp [LockFreeRingBuffer.step, access, hpc, hj]⟩

theorem claim_completes_taken : ∃ j k, k ≤ 3 ∧
    ((List.replicate k (.access j false)).foldl step taken.1).counter .consumed = taken.1.counter .consumed + 1 :=
  claim_completes 1 taken (.run _ .start (by decide +kernel)) 0 0 .dequeue (by decide +kernel)

end LockFreeRingBuffer

end MojoProse.AsyncRT
