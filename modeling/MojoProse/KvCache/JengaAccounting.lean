import MojoProse.KvCache.JengaGroups
import MojoProse.Schemes.Ledger

/-! What the group operations do to reference counts.

    A row holds one reference for each occurrence of a real block in it. Every operation on a row
    trades references between the row, the blocks in hand and the pool. -/

namespace MojoProse.KvCache
open Schemes JengaBlockPool Trades List Function Nat

variable {C H R : Type} [DecidableEq C] {l : List ℕ}

/-- The counts of a pool, over real blocks. -/
def live (p : JengaBlockPool C H) : C × ℕ → ℕ := fun k => if k.2 = 0 then 0 else p.refCnt k.1 k.2

def refsOf (c : C) (l : List ℕ) : C × ℕ → ℕ := fun k => if k.1 = c ∧ k.2 ≠ 0 then l.count k.2 else 0

def refsOfRows (rows : C → List ℕ) : C × ℕ → ℕ := fun k => if k.2 = 0 then 0 else (rows k.1).count k.2

@[simp] theorem refsOf_nil (c : C) : refsOf c [] = 0 := by
  funext k
  simp [refsOf]

theorem refsOf_append (c : C) (l l' : List ℕ) : refsOf c (l ++ l') = refsOf c l + refsOf c l' := by
  funext k
  simp only [refsOf, count_append, Pi.add_apply]
  split_ifs <;> rfl

theorem refsOf_cons (c : C) (b : ℕ) (l : List ℕ) : refsOf c (b :: l) = refsOf c [b] + refsOf c l :=
  refsOf_append c [b] l

@[simp] theorem refsOf_null (c : C) : refsOf c [0] = 0 := by
  funext k
  simp only [refsOf, count_singleton, Pi.zero_apply]
  split_ifs with h1 h2
  · simp at h2
    exact absurd h2.symm h1.2
  · rfl
  · rfl

@[simp] theorem refsOf_replicate (c : C) (n : ℕ) : refsOf c (List.replicate n 0) = 0 := by
  induction n with
  | zero => simp
  | succ n ih => rw [replicate_succ, refsOf_cons, ih, refsOf_null, add_zero]

theorem refsOf_eq_sum (c : C) (l : List ℕ) : refsOf c l = (l.map fun b => refsOf c [b]).sum := by
  induction l with
  | nil => simp
  | cons b l ih => rw [refsOf_cons, ih, map_cons, sum_cons]

theorem refsOf_perm {c : C} {l' : List ℕ} (h : l.Perm l') : refsOf c l = refsOf c l' := by
  funext k
  simp [refsOf, h.count_eq]

theorem refsOf_set {c : C} {i b : ℕ} (h : l[i]? = some b) (b' : ℕ) :
    refsOf c (l.set i b') + refsOf c [b] = refsOf c l + refsOf c [b'] := by
  obtain ⟨hi, rfl⟩ := List.getElem?_eq_some_iff.mp h
  have hset := refsOf_perm (c := c) (set_perm_cons_eraseIdx hi b')
  have hget := refsOf_perm (c := c) (getElem_cons_eraseIdx_perm hi)
  rw [refsOf_cons] at hset hget
  rw [hset, ← hget]
  ac_rfl

theorem refsOf_pos {c : C} {b : ℕ} (hb : b ≠ 0) (hmem : b ∈ l) : 0 < refsOf c l (c, b) := by
  simpa [refsOf, hb] using count_pos_iff.mpr hmem

theorem refsOf_singleton (c : C) (b : ℕ) (k : C × ℕ) : refsOf c [b] k = if k = (c, b) ∧ b ≠ 0 then 1 else 0 := by
  obtain ⟨c', b'⟩ := k
  simp only [refsOf, count_singleton, Prod.mk.injEq]
  by_cases hb : b' = b
  · subst hb
    simp
  · have hb' : ¬ b = b' := fun h => hb h.symm
    simp [hb, hb']

theorem refsOfRows_update (rows : C → List ℕ) (c : C) (l : List ℕ) :
    refsOfRows (update rows c l) + refsOf c (rows c) = refsOfRows rows + refsOf c l := by
  funext ⟨c', b⟩
  simp only [Pi.add_apply, refsOfRows, refsOf]
  by_cases hc : c' = c
  · subst hc
    by_cases hb : b = 0
    · simp [hb]
    · simp [hb, add_comm]
  · simp [hc]

variable {g : Geometry C} {c : C} {bid n : ℕ} {p p' : JengaBlockPool C H}

theorem live_of_update (href : p'.refCnt = update p.refCnt c
    (update (p.refCnt c) bid n)) (k : C × ℕ) : live p' k = if k = (c, bid) ∧ bid ≠ 0 then n else live p k := by
  obtain ⟨c', b⟩ := k
  simp only [live, href, Prod.mk.injEq]
  by_cases hc : c' = c
  · subst hc
    by_cases hb : b = bid
    · subst hb
      by_cases h0 : b = 0 <;> simp [h0]
    · simp [hb]
  · simp [hc]

theorem trades_of_pred (href : p'.refCnt = update p.refCnt c
    (update (p.refCnt c) bid (p.refCnt c bid - 1))) (hne : p.refCnt c bid ≠ 0) :
    Trades (live p) (refsOf c [bid]) (live p') 0 := by
  intro k
  rw [live_of_update href, refsOf_singleton, Pi.zero_apply]
  split_ifs with h
  · obtain ⟨rfl, h0⟩ := h
    simp only [live, h0, if_false]
    omega
  · rfl

theorem trades_of_succ (href : p'.refCnt = update p.refCnt c
    (update (p.refCnt c) bid (p.refCnt c bid + 1))) : Trades (live p) 0 (live p') (refsOf c [bid]) := by
  intro k
  rw [live_of_update href, refsOf_singleton, Pi.zero_apply]
  split_ifs with h
  · obtain ⟨rfl, h0⟩ := h
    simp [live, h0]
  · rfl

variable [DecidableEq H]

namespace KVGroup

/-- What giving blocks back keeps of a pool, besides its invariant. -/
structure FreeKeeps (g : Geometry C) (P : JengaBlockPool C H → Prop) : Prop where
  inv : ∀ p, P p → p.Inv g
  free : ∀ p c bid p', P p → p.refCnt c bid ≠ 0 → p.freeBlock g c bid = .ok p' → P p'

structure StepKeeps (g : Geometry C) (P : JengaBlockPool C H → Prop) : Prop extends FreeKeeps g P where
  publish : ∀ p c bid h t p', P p → p.refCnt c bid ≠ 0 → p.blockHash c bid = none →
    p.getOrCommitIntoPrefixCache g h c bid = .ok (t, p') → P p'

theorem stepKeeps_inv (g : Geometry C) : StepKeeps g (Inv g : JengaBlockPool C H → Prop) where
  inv _ hi := hi
  free _ _ _ _ hi href hok := by
    obtain ⟨_, hok', hi', -⟩ := freeBlock_spec hi href
    rw [hok] at hok'
    cases hok'
    exact hi'
  publish _ _ _ _ _ _ hi href hnone hok := by
    obtain ⟨_, _, hok', hi', -⟩ := getOrCommitIntoPrefixCache_spec hi href hnone
    rw [hok] at hok'
    cases hok'
    exact hi'

variable {P : JengaBlockPool C H → Prop}

theorem free_keeps (hP : FreeKeeps g P) (hp : P p) (c : C) (bid : ℕ) (href : bid ≠ 0 → p.refCnt c bid ≠ 0) :
    ∃ p', (free g c bid : PoolEff C H R Unit) p = .ok () p' ∧ P p' ∧ Trades (live p) (refsOf c [bid]) (live p') 0 := by
  by_cases h0 : bid = 0
  · subst h0
    refine ⟨p, ?_, hp, ?_⟩
    · simp [free, callPool, freeBlock]
    · rw [refsOf_null]
      exact refl _ _
  · obtain ⟨p', hok, -, hr, -⟩ := freeBlock_spec (hP.inv p hp) (href h0)
    exact ⟨p', by simp [free, callPool, hok], hP.free p c bid p' hp (href h0) hok, trades_of_pred hr (href h0)⟩

theorem free_ok (hi : p.Inv g) (c : C) (bid : ℕ) (href : bid ≠ 0 → p.refCnt c bid ≠ 0) :
    ∃ p', (free g c bid : PoolEff C H R Unit) p = .ok () p' ∧ p'.Inv g ∧ Trades (live p) (refsOf c [bid]) (live p') 0 :=
  free_keeps (stepKeeps_inv g).toFreeKeeps hi c bid href

theorem touch_ok (hi : p.Inv g) (c : C) (bid : ℕ) (hlive : bid ≠ 0 → p.refCnt c bid ≠ 0 ∨ p.blockHash c bid ≠ none) :
    ∃ p', (touch g c bid : PoolEff C H R Unit) p = .ok () p' ∧ p'.Inv g ∧ Trades (live p) 0 (live p') (refsOf c [bid]) ∧
      p'.blockHash = p.blockHash ∧ p'.prefixCaches = p.prefixCaches := by
  by_cases h0 : bid = 0
  · subst h0
    refine ⟨p, ?_, hi, ?_, rfl, rfl⟩
    · simp [touch, callPool, JengaBlockPool.touch]
    · rw [refsOf_null]
      exact refl _ _
  · obtain ⟨p', hok, hi', hr, hh, hc⟩ := touch_spec hi (hlive h0)
    exact ⟨p', by simp [touch, callPool, hok], hi', trades_of_succ hr, hh, hc⟩

theorem alloc_cases (hi : p.Inv g) : (∃ bid p', (alloc g c : PoolEff C H R ℕ) p = .ok bid p' ∧ p'.Inv g ∧ bid ≠ 0 ∧
      p.refCnt c bid = 0 ∧ Trades (live p) 0 (live p') (refsOf c [bid]) ∧ p'.blockHash c bid = none) ∨
    ((alloc g c : PoolEff C H R ℕ) p = .error (.pool (.insufficientBlocks c)) p ∧
      ∃ e, p.allocBlock g c = .error e) := by
  cases hok : p.allocBlock g c with
  | ok r =>
    obtain ⟨bid, p'⟩ := r
    obtain ⟨hi', hreal, hzero, hr, hnone, -⟩ := allocBlock_spec hi hok
    refine .inl ⟨bid, p', by simp [alloc, callPool, hok], hi', hreal.ne_zero, hzero, trades_of_succ ?_, hnone⟩
    rw [hr, hzero]
  | error e =>
    rcases allocBlock_cases hi c with ⟨herr, -⟩ | ⟨_, _, _, _, _, hok', -⟩
    · rw [hok] at herr
      cases herr
      exact .inr ⟨by simp [alloc, callPool, hok], _, rfl⟩
    · rw [hok] at hok'
      cases hok'

/-- Publishing a referenced block keeps it, or trades it for the block that serves its hash. -/
theorem getOrCommit_keeps {h : H} (hP : StepKeeps g P) (hp : P p) (href : p.refCnt c bid ≠ 0)
    (hnone : p.blockHash c bid = none) :
    ∃ t p', (getOrCommit g c h bid : PoolEff C H R (Option ℕ)) p = .ok t p' ∧ P p' ∧
      t.getD bid ≠ 0 ∧ Trades (live p) (refsOf c [bid]) (live p') (refsOf c [t.getD bid]) := by
  have hi := hP.inv p hp
  obtain ⟨t, p', hok, -, hspec⟩ := getOrCommitIntoPrefixCache_spec hi href hnone
  refine ⟨t, p', by simp [getOrCommit, callPool, hok], hP.publish p c bid h t p' hp href hnone hok, ?_⟩
  cases t with
  | none =>
    refine ⟨(hi.typed_of_ref c bid href).1.ne_zero, fun k => ?_⟩
    simp [live, hspec.2.1]
  | some twin =>
    obtain ⟨htwin, hne, -, hr⟩ := hspec
    refine ⟨(hi.typed_of_hash c twin (by simp [htwin])).1.ne_zero, ?_⟩
    -- a reference to the twin is taken first, the one to the block is given back after it
    have htake : Trades (live p) 0 (live (p.setRefCnt c twin (p.refCnt c twin + 1))) (refsOf c [twin]) :=
      trades_of_succ rfl
    have hgive : Trades (live (p.setRefCnt c twin (p.refCnt c twin + 1))) (refsOf c [bid]) (live p') 0 :=
      trades_of_pred (by simp [setRefCnt, hr, hne.symm]) (by simpa [setRefCnt, hne.symm] using href)
    simpa using htake.seq hgive

theorem commitBlock_ok {h : H} (hi : p.Inv g) (href : p.refCnt c bid ≠ 0)
    (hnone : p.blockHash c bid = none) (hnew : (p.prefixCaches c).get? h = none) :
    ∃ p', (commitBlock c h bid : PoolEff C H R Unit) p = .ok () p' ∧ p'.Inv g ∧ live p' = live p := by
  obtain ⟨p', hok, hi', hr, -⟩ := commitIntoPrefixCache_spec hi href hnone hnew
  exact ⟨p', by simp [commitBlock, callPool, hok], hi', by funext k; simp [live, hr]⟩

variable {s : RowState C H} {row : List ℕ} {group : AttentionGroup}

omit [DecidableEq C] [DecidableEq H] in
theorem onPool_of_ok {α : Type} {m : PoolEff C H R α} {a : α} (h : m p = .ok a p') :
    onPool m ⟨p, row⟩ = .ok a ⟨p', row⟩ :=
  zoom_of_ok h

omit [DecidableEq C] [DecidableEq H] in
theorem onPool_of_error {α : Type} {m : PoolEff C H R α} {e : KvError C R}
    (h : m p = .error e p') : onPool m ⟨p, row⟩ = .error e ⟨p', row⟩ :=
  zoom_of_error h

omit [DecidableEq H] in
theorem ref_ne_zero_of_mem (hc : refsOf c l ≤ live p) (hmem : bid ∈ l) (h0 : bid ≠ 0) : p.refCnt c bid ≠ 0 := by
  have h1 := hc (c, bid)
  have h2 := refsOf_pos (c := c) h0 hmem
  simp only [live, h0, if_false] at h1
  omega

omit [DecidableEq C] [DecidableEq H] in
theorem forM_trades {α : Type} {m : α → PoolEff C H R Unit} {w v : α → C × ℕ → ℕ} {l : List α}
    (hm : ∀ a ∈ l, ∀ p, P p → w a ≤ live p →
      ∃ p', m a p = .ok () p' ∧ P p' ∧ Trades (live p) (w a) (live p') (v a)) (hp : P p) (hc : (l.map w).sum ≤ live p) :
    ∃ p', l.forM m p = .ok () p' ∧ P p' ∧ Trades (live p) (l.map w).sum (live p') (l.map v).sum := by
  induction l generalizing p with
  | nil => exact ⟨p, rfl, hp, refl _ _⟩
  | cons a l ih =>
    obtain ⟨ha, hm⟩ := forall_mem_cons.mp hm
    rw [map_cons, sum_cons] at hc
    obtain ⟨p1, hok1, hp1, ht1⟩ := ha p hp (le_self_add.trans hc)
    obtain ⟨p2, hok2, hp2, ht2⟩ := ih hm hp1 (le_add_self.trans (ht1.covers hc))
    exact ⟨p2, (bind_of_ok hok1).trans hok2, hp2, ht1.seq ht2⟩

theorem forM_free_ok (l : List ℕ) (hi : p.Inv g) (hc : refsOf c l ≤ live p) :
    ∃ p', (l.forM (free g c) : PoolEff C H R Unit) p = .ok () p' ∧ p'.Inv g ∧
      Trades (live p) (refsOf c l) (live p') 0 := by
  rw [refsOf_eq_sum] at hc ⊢
  simpa using forM_trades (v := fun _ => 0) (fun b _ p hi hc => free_ok hi c b (ref_ne_zero_of_mem hc (by simp))) hi hc

theorem popBlocks_ok (n : ℕ) : ∀ {s : RowState C H}, s.pool.Inv g → refsOf c s.row ≤ live s.pool → n ≤ s.row.length →
    ∃ p', (popBlocks g c n : RowEff C H R Unit) s = .ok () ⟨p', s.row.take (s.row.length - n)⟩ ∧ p'.Inv g ∧
      Trades (live s.pool) (refsOf c s.row) (live p') (refsOf c (s.row.take (s.row.length - n))) := by
  induction n with
  | zero =>
    intro s hi _ _
    exact ⟨s.pool, by simp [popBlocks, pure, EStateM.pure], hi, by simpa using refl _ _⟩
  | succ n ih =>
    rintro ⟨p, row⟩ hi hc hn
    obtain rfl | ⟨l, b, rfl⟩ := eq_nil_or_concat' row
    · simp at hn
    · simp only [length_append, length_singleton, add_le_add_iff_right] at hn
      rw [refsOf_append] at hc ⊢
      obtain ⟨p1, hok1, hi1, ht1⟩ := free_ok hi c b
        (ref_ne_zero_of_mem (l := [b]) (le_trans (by simp) hc) (by simp))
      have ht1 := ht1.frame (refsOf c l)
      rw [zero_add, add_comm] at ht1
      obtain ⟨p2, hok2, hi2, ht2⟩ := ih (s := ⟨p1, l⟩) hi1 (ht1.covered hc) hn
      have htake : (l ++ [b]).take (l.length + 1 - (n + 1)) = l.take (l.length - n) := by
        rw [Nat.add_sub_add_right, take_append_of_le_length (Nat.sub_le _ _)]
      simp only [length_append, length_singleton, htake]
      refine ⟨p2, ?_, hi2, ht1.trans ht2⟩
      rw [popBlocks, bind_get]
      simp only [getLast?_append, getLast?_singleton, Option.some_or]
      rw [bind_modify]
      simp only [dropLast_concat]
      exact (bind_of_ok (onPool_of_ok hok1)).trans hok2

theorem shrinkToFit_ok {k : ℕ} (hi : s.pool.Inv g) (hc : refsOf c s.row ≤ live s.pool) (hk : k ≤ s.row.length) :
    ∃ p', (shrinkToFit g c k : RowEff C H R Unit) s = .ok () ⟨p', s.row.take k⟩ ∧ p'.Inv g ∧
      Trades (live s.pool) (refsOf c s.row) (live p') (refsOf c (s.row.take k)) := by
  obtain ⟨p', hok, hspec⟩ := popBlocks_ok (s.row.length - k) hi hc (Nat.sub_le _ _)
  rw [Nat.sub_sub_self hk] at hok hspec
  refine ⟨p', ?_, hspec⟩
  simpa [shrinkToFit, bind_get, not_lt.mpr hk] using hok

/-- Blocks drawn from a pool: real ones, with a reference on each. -/
structure Drawn (g : Geometry C) (c : C) (p : JengaBlockPool C H) (new : List ℕ) (p' : JengaBlockPool C H) : Prop where
  inv : p'.Inv g
  real : ∀ b ∈ new, b ≠ 0
  trade : Trades (live p) 0 (live p') (refsOf c new)
  idle : new = [] → p' = p

theorem Drawn.nil (hi : p.Inv g) : Drawn g c p [] p := ⟨hi, by simp, by simpa using refl _ _, fun _ => rfl⟩

theorem Drawn.cons {p1 : JengaBlockPool C H} {new : List ℕ} (h0 : bid ≠ 0)
    (ht : Trades (live p) 0 (live p1) (refsOf c [bid])) (h : Drawn g c p1 new p') : Drawn g c p (bid :: new) p' := by
  refine ⟨h.inv, by simpa [h0] using h.real, ?_, by simp⟩
  rw [refsOf_cons]
  simpa using ht.seq h.trade

theorem appendBlocks_ends (n : ℕ) : ∀ {s : RowState C H}, s.pool.Inv g →
    Ends ((appendBlocks g c n : RowEff C H R Unit) s)
      (fun _ s' => ∃ new, new.length = n ∧ s'.row = s.row ++ new ∧ Drawn g c s.pool new s'.pool)
      (fun e s' => e = .pool (.insufficientBlocks c) ∧ ∃ new, new.length < n ∧
        s'.row = s.row ++ new ∧ Drawn g c s.pool new s'.pool ∧ ∃ e, s'.pool.allocBlock g c = .error e) := by
  induction n with
  | zero => exact fun {s} hi => ⟨[], rfl, by simp, .nil hi⟩
  | succ n ih =>
    rintro ⟨p, row⟩ hi
    rcases alloc_cases hi with ⟨bid, p1, hok, hi1, h0, -, ht, -⟩ | ⟨herr, hnone⟩
    · rw [appendBlocks, bind_of_ok (onPool_of_ok hok), bind_modify]
      refine (ih hi1).mono ?_ ?_
      · rintro _ s' ⟨new, hlen, hrow, h⟩
        exact ⟨bid :: new, by simp [hlen], by simpa using hrow, h.cons h0 ht⟩
      · rintro e s' ⟨he, new, hlen, hrow, h, hnone⟩
        exact ⟨he, bid :: new, by simpa using hlen, by simpa using hrow, h.cons h0 ht, hnone⟩
    · rw [appendBlocks, bind_of_error (onPool_of_error herr)]
      exact ⟨rfl, [], by simp, by simp, .nil hi, hnone⟩

/-- The slots that hold the null block. -/
def SameNulls (row row' : List ℕ) : Prop :=
  row'.length = row.length ∧ ∀ i : ℕ, row'[i]? = some 0 ↔ row[i]? = some 0

theorem SameNulls.trans {l1 l2 l3 : List ℕ} (h : SameNulls l1 l2) (h' : SameNulls l2 l3) : SameNulls l1 l3 :=
  ⟨h'.1.trans h.1, fun i => (h'.2 i).trans (h.2 i)⟩

theorem SameNulls.set {i b b' : ℕ} (hb : row[i]? = some b) (h0 : b ≠ 0) (h0' : b' ≠ 0) :
    SameNulls row (row.set i b') := by
  refine ⟨by simp, fun j => ?_⟩
  obtain ⟨hi, rfl⟩ := List.getElem?_eq_some_iff.mp hb
  by_cases hj : i = j
  · subst hj
    simp [hi, h0, h0']
  · simp [hj]

theorem commitAt_ok (hashes : List H) (idx : ℕ) (hP : StepKeeps g P) (hi : P s.pool)
    (hc : refsOf c s.row ≤ live s.pool) (hidx : idx < s.row.length) (hh : idx < hashes.length) :
    ∃ s', (commitAt g c hashes idx : RowEff C H R Unit) s = .ok () s' ∧ P s'.pool ∧ SameNulls s.row s'.row ∧
      Trades (live s.pool) (refsOf c s.row) (live s'.pool) (refsOf c s'.row) := by
  obtain ⟨p, row⟩ := s
  have hb : row[idx]? = some row[idx] := getElem?_eq_getElem hidx
  have hh' : hashes[idx]? = some hashes[idx] := getElem?_eq_getElem hh
  generalize row[idx] = b at hb
  by_cases hskip : b = 0 ∨ p.blockHash c b ≠ none
  · refine ⟨⟨p, row⟩, ?_, hi, ⟨rfl, fun _ => Iff.rfl⟩, refl _ _⟩
    rw [commitAt, bind_get]
    simp only [hb]
    rw [if_pos hskip]
    rfl
  have hrun : ∀ {t p'}, (getOrCommit g c hashes[idx] b : PoolEff C H R (Option ℕ)) p = .ok t p' →
      (commitAt g c hashes idx : RowEff C H R Unit) ⟨p, row⟩ =
        .ok () ⟨p', row.set idx (t.getD b)⟩ := by
    intro t p' hok
    rw [commitAt, bind_get]
    simp only [hb, hh']
    rw [if_neg hskip, bind_of_ok (onPool_of_ok hok)]
    cases t with
    | none =>
      obtain ⟨_, rfl⟩ := List.getElem?_eq_some_iff.mp hb
      simp [pure, EStateM.pure]
    | some twin => rfl
  simp only [not_or, not_not] at hskip
  have href := ref_ne_zero_of_mem hc (mem_of_getElem? hb) hskip.1
  obtain ⟨t, p', hok, hi', hreal, ht⟩ := getOrCommit_keeps hP hi href hskip.2
  exact ⟨_, hrun hok, hi', .set hb hskip.1 hreal, ht.exchange (refsOf_set hb _)⟩

/-- `commit` replaces blocks by their twins, slot by slot. -/
theorem commit_ok {hashes : List H} {lastBlock : ℕ} (hP : StepKeeps g P) (hi : P s.pool)
    (hc : refsOf c s.row ≤ live s.pool) (hlast : lastBlock ≤ hashes.length) :
    Ends ((commit g c hashes lastBlock : RowEff C H R Unit) s) (fun _ s' => P s'.pool ∧ SameNulls s.row s'.row ∧
        Trades (live s.pool) (refsOf c s.row) (live s'.pool) (refsOf c s'.row)) (fun _ _ => False) := by
  rw [commit, bind_get]
  refine (Ends.forM (I := fun rest s' => (∀ i ∈ rest, i < min lastBlock s.row.length) ∧
      P s'.pool ∧ SameNulls s.row s'.row ∧
      Trades (live s.pool) (refsOf c s.row) (live s'.pool) (refsOf c s'.row)) ?_ _ s
    ⟨by simp, hi, ⟨rfl, fun _ => Iff.rfl⟩, refl _ _⟩).imp (fun _ _ h => h.2)
  rintro i rest s1 ⟨hrest, hi1, hn1, ht1⟩
  have hlt := hrest i (by simp)
  obtain ⟨s2, hok, hi2, hn2, ht2⟩ := commitAt_ok hashes i hP hi1
    (ht1.covered hc) (by rw [hn1.1]; omega) (by omega)
  rw [hok]
  exact ⟨(forall_mem_cons.mp hrest).2, hi2, hn1.trans hn2, ht1.trans ht2⟩

/-- The row with the slots from `j` to `n` nulled. -/
def Nulled (j n : ℕ) (row row' : List ℕ) : Prop :=
  row'.length = row.length ∧ ∀ i : ℕ, row'[i]? = if j ≤ i ∧ i < n then some 0 else row[i]?

theorem Nulled.refl (n : ℕ) (row : List ℕ) : Nulled n n row row := ⟨rfl, fun i => by rw [if_neg (by omega)]⟩

theorem Nulled.of_set {j n : ℕ} {row' : List ℕ} (hj : j ≤ n) (hn : n < row.length)
    (h : Nulled j n (row.set n 0) row') : Nulled j (n + 1) row row' := by
  refine ⟨by simpa using h.1, fun i => ?_⟩
  rw [h.2, getElem?_set]
  rcases lt_trichotomy i n with hi | rfl | hi
  · simp [hi, hi.ne', lt_succ_of_lt hi]
  · simp [hj, hn]
  · simp [hi.ne, not_lt.mpr hi.le, not_lt.mpr (succ_le_of_lt hi)]

/-- The loop of `advance`: the slots down to the first null block are nulled, each with one free. -/
theorem nullBelow_ok (hP : FreeKeeps g P) (n : ℕ) : ∀ {s : RowState C H}, P s.pool →
    refsOf c s.row ≤ live s.pool → n ≤ s.row.length →
    ∃ j s', j ≤ n ∧ (nullBelow g c n : RowEff C H R Unit) s = .ok () s' ∧ P s'.pool ∧
      Nulled j n s.row s'.row ∧ (j = 0 ∨ s.row[j - 1]? = some 0) ∧
      Trades (live s.pool) (refsOf c s.row) (live s'.pool) (refsOf c s'.row) := by
  induction n with
  | zero => exact fun {s} hi _ _ => ⟨0, s, le_rfl, rfl, hi, .refl _ _, .inl rfl, .refl _ _⟩
  | succ n ih =>
    rintro ⟨p, row⟩ hi hc (hn : n < row.length)
    have hb : row[n]? = some row[n] := getElem?_eq_getElem hn
    generalize row[n] = b at hb
    by_cases h0 : b = 0
    · subst h0
      refine ⟨n + 1, ⟨p, row⟩, le_rfl, ?_, hi, .refl _ _, .inr hb, .refl _ _⟩
      rw [nullBelow, bind_get]
      simp [hb, pure, EStateM.pure]
    · obtain ⟨p1, hok1, hi1, ht1⟩ := free_keeps hP hi c b (ref_ne_zero_of_mem hc (mem_of_getElem? hb))
      have ht1 : Trades (live p) (refsOf c row) (live p1) (refsOf c (row.set n 0)) :=
        ht1.exchange (by rw [refsOf_set hb, refsOf_null])
      obtain ⟨j, s2, hj, hok2, hi2, hrow, hnull, ht2⟩ := ih (s := ⟨p1, row.set n 0⟩) hi1
        (ht1.covered hc) (by simpa using hn.le)
      refine ⟨j, s2, by omega, ?_, hi2, hrow.of_set hj hn, ?_, ht1.trans ht2⟩
      · rw [nullBelow, bind_get]
        simp only [hb]
        rw [if_neg h0, bind_of_ok (onPool_of_ok hok1), bind_modify]
        exact hok2
      · rcases hnull with h | h
        · exact .inl h
        · rcases Nat.eq_zero_or_pos j with hj0 | hj0
          · exact .inl hj0
          · exact .inr (by simpa [show n ≠ j - 1 by omega] using h)

theorem advance_ends {pageSize k : ℕ} (hi : s.pool.Inv g) (hc : refsOf c s.row ≤ live s.pool) :
    Ends ((advance g c pageSize group k : RowEff C H R Unit) s)
      (fun _ s' => s'.pool.Inv g ∧ Trades (live s.pool) (refsOf c s.row) (live s'.pool) (refsOf c s'.row) ∧
        match group.window pageSize with
        | none => s'.row = s.row
        | some w => ∃ j, j ≤ k - w ∧ k - w ≤ s.row.length ∧ Nulled j (k - w) s.row s'.row ∧
            (j = 0 ∨ s.row[j - 1]? = some 0))
      (fun e _ => e = .indexError) := by
  rw [advance]
  cases group.window pageSize with
  | none => exact ⟨hi, .refl _ _, rfl⟩
  | some w =>
    by_cases hn : k - w ≤ s.row.length
    · obtain ⟨j, s', hj, hok, hi', hrow, hnull, ht⟩ := nullBelow_ok (R := R) (stepKeeps_inv g).toFreeKeeps (k - w) hi hc hn
      simp only [hok]
      exact ⟨hi', ht, j, hj, hn, hrow, hnull⟩
    · -- the first read of the row is past its end
      obtain ⟨m, hm⟩ : ∃ m, k - w = m + 1 := ⟨k - w - 1, by omega⟩
      have hnone : s.row[m]? = none := getElem?_eq_none (by omega)
      simp only [hm, nullBelow, bind_get, hnone]
      exact rfl

theorem release_ok (hi : s.pool.Inv g) (hc : refsOf c s.row ≤ live s.pool) :
    ∃ p', (release g c : RowEff C H R Unit) s = .ok () ⟨p', []⟩ ∧ p'.Inv g ∧
      Trades (live s.pool) (refsOf c s.row) (live p') 0 := by
  rw [← refsOf_perm s.row.reverse_perm] at hc ⊢
  obtain ⟨p', hok, hi', ht⟩ := forM_free_ok s.row.reverse hi hc
  refine ⟨p', ?_, hi', ht⟩
  rw [release, bind_get, bind_modify]
  exact onPool_of_ok hok

section
variable (pageSize : ℕ) (group : AttentionGroup)

/-- The blocks of the device hit that `extend` keeps in the row. -/
def keptOfHit (hit loaded : List ℕ) : List ℕ :=
  if (group.window pageSize).isSome ∧ loaded.head? = some 0 then replicate hit.length 0 else hit

theorem extend_ok (loaded : List ℕ) {hit : List ℕ} (hi : s.pool.Inv g)
    (hc : refsOf c hit ≤ live s.pool) : ∃ p', (extend g c pageSize group hit loaded : RowEff C H R Unit) s =
        .ok () ⟨p', s.row ++ (keptOfHit pageSize group hit loaded ++ loaded)⟩ ∧ p'.Inv g ∧
      Trades (live s.pool) (refsOf c hit) (live p') (refsOf c (keptOfHit pageSize group hit loaded)) := by
  obtain ⟨p, row⟩ := s
  by_cases hdrop : (group.window pageSize).isSome ∧ loaded.head? = some 0
  · obtain ⟨p', hok, hi', ht⟩ := forM_free_ok hit hi hc
    refine ⟨p', ?_, hi', ?_⟩
    · rw [extend, if_pos hdrop, keptOfHit, if_pos hdrop, bind_of_ok (onPool_of_ok hok)]
      rfl
    · rwa [keptOfHit, if_pos hdrop, refsOf_replicate]
  · refine ⟨p, ?_, hi, ?_⟩
    · rw [extend, if_neg hdrop, keptOfHit, if_neg hdrop]
      rfl
    · rw [keptOfHit, if_neg hdrop]
      exact .refl _ _

/-- The first slot of a device hit that holds a block. -/
def hitLow (p : JengaBlockPool C H) (c : C) (desired : List H) : ℕ :=
  match group.window pageSize with
  | none => 0
  | some w =>
    if (desired.drop (desired.length - w)).all (holds c p) then desired.length - w
    else desired.length

end

theorem touchHash_ends {h : H} (hi : p.Inv g) : Ends ((touchHash g c h : PoolEff C H R ℕ) p)
      (fun bid p' => p'.Inv g ∧ bid ≠ 0 ∧ Trades (live p) 0 (live p') (refsOf c [bid]) ∧
        p'.prefixCaches = p.prefixCaches) (fun e _ => e = .keyError) := by
  rw [touchHash, bind_get]
  cases hget : (p.prefixCaches c).get? h with
  | none => exact rfl
  | some bid =>
    have hhash := (hi.cache c h bid).mp hget
    obtain ⟨p', hok, hi', ht, -, hcache⟩ := touch_ok hi c bid fun _ => .inr (by simp [hhash])
    simp only
    rw [bind_of_ok hok]
    exact ⟨hi', (hi.typed_of_hash c bid (by simp [hhash])).1.ne_zero, ht, hcache⟩

theorem mapM_touchHash_ends (hi : p.Inv g) (hs : List H) : Ends ((hs.mapM (touchHash g c) : PoolEff C H R (List ℕ)) p)
      (fun bids p' => p'.Inv g ∧ bids.length = hs.length ∧ (∀ b ∈ bids, b ≠ 0) ∧
        Trades (live p) 0 (live p') (refsOf c bids) ∧ p'.prefixCaches = p.prefixCaches) (fun e _ => e = .keyError) := by
  refine (Ends.mapM (I := fun bids rest p' => p'.Inv g ∧ bids.length + rest.length = hs.length ∧
      (∀ b ∈ bids, b ≠ 0) ∧ Trades (live p) 0 (live p') (refsOf c bids) ∧
      p'.prefixCaches = p.prefixCaches) ?_ hs [] p
    ⟨hi, by simp, by simp, by simpa using refl _ _, rfl⟩).imp ?_
  · rintro bids h rest p1 ⟨hi1, hlen, hreal, ht1, hc1⟩
    refine (touchHash_ends hi1).imp ?_
    rintro bid p2 ⟨hi2, h0, ht2, hc2⟩
    refine ⟨hi2, by simpa [add_assoc, add_comm 1] using hlen, ?_, ?_, hc2.trans hc1⟩
    · simpa [or_imp, forall_and, h0] using hreal
    · rw [refsOf_append]
      simpa using ht1.seq ht2
  · rintro bids p' ⟨hi', hlen, hreal, ht, hcache⟩
    exact ⟨hi', by simpa using hlen, by simpa using hreal, by simpa using ht, hcache⟩

/-- `claim_hit_blocks`: a run of null blocks, then real ones, a reference on each. -/
theorem claimHitBlocks_ends {pageSize : ℕ} {desired : List H} (hi : p.Inv g) :
    Ends ((claimHitBlocks g c pageSize group desired : PoolEff C H R (List ℕ)) p)
      (fun row p' => p'.Inv g ∧ row.length = desired.length ∧
        (∃ real, row = replicate (hitLow pageSize group p c desired) 0 ++ real ∧ ∀ b ∈ real, b ≠ 0) ∧
        Trades (live p) 0 (live p') (refsOf c row) ∧ p'.prefixCaches = p.prefixCaches) (fun e _ => e = .keyError) := by
  rw [claimHitBlocks, hitLow]
  cases group.window pageSize with
  | none =>
    refine (mapM_touchHash_ends hi desired).imp ?_
    rintro bids p' ⟨hi', hlen, hreal, ht, hcache⟩
    exact ⟨hi', hlen, ⟨bids, by simp, hreal⟩, ht, hcache⟩
  | some w =>
    simp only [bind_get]
    generalize hlow : (if (desired.drop (desired.length - w)).all (holds c p) then
      desired.length - w else desired.length) = low
    have hle : low ≤ desired.length := by
      subst hlow
      split_ifs <;> omega
    refine Ends.bind (mapM_touchHash_ends hi (desired.drop low)) ?_
    rintro bids p' ⟨hi', hlen, hreal, ht, hcache⟩
    refine ⟨hi', ?_, ⟨bids, rfl, hreal⟩, ?_, hcache⟩
    · simp only [length_append, length_replicate, hlen, length_drop]
      omega
    · simpa [refsOf_append] using ht

end KVGroup

end MojoProse.KvCache
