import MojoProse.KvCache.JengaAccounting
import MojoProse.KvCache.JengaManager

/-! What the operations on a whole tree of leaves do: to the pool of one replica, and to the rows of one request.

    A loop over the leaves is one trade of references, the sum of the trades of its leaves. Only the want of a free
    block raises `InsufficientBlocksError`. -/

namespace MojoProse.KvCache
open Schemes KVGroup Ends JengaBlockPool Trades List Function

variable {C H R : Type}

@[simp] theorem refsOfRows_nil : refsOfRows (fun _ : C => []) = 0 := by
  funext k
  simp [refsOfRows]

variable {blocks rows : C → List ℕ}

theorem eq_nil_of_refsOfRows (hreal : ∀ c, ∀ b ∈ rows c, b ≠ 0) (h : refsOfRows rows = 0) (c : C) : rows c = [] := by
  refine eq_nil_iff_forall_not_mem.mpr fun b hb => ?_
  have hcnt := congrFun h (c, b)
  simp only [refsOfRows, hreal c b hb, if_false, Pi.zero_apply, count_eq_zero] at hcnt
  exact hcnt hb

/-- In a loop over leaves: the rows of those still to come are as at the start, those of the others as `Q` says. -/
structure Passing (Q : C → List ℕ → Prop) (start : C → List ℕ) (rest : List C) (rows : C → List ℕ) : Prop where
  nodup : rest.Nodup
  todo : ∀ c ∈ rest, rows c = start c
  done : ∀ c ∉ rest, Q c (rows c)

variable {cfg : ManagerConfig C H} {p p' : JengaBlockPool C H} {c : C} {desired : List H} {n : ℕ}

namespace KVTree

theorem passing_leaves (cfg : ManagerConfig C H) (Q : C → List ℕ → Prop) (rows : C → List ℕ) :
    Passing Q rows cfg.leaves rows :=
  ⟨cfg.leaves_nodup, fun _ _ => rfl, fun c h => absurd (cfg.mem_leaves c) h⟩

/-! ### What the leaves accept -/

variable (pageSize : ℕ) (group : AttentionGroup)

/-- The nulls below a hit of `n` blocks. -/
def windowLow (n : ℕ) : ℕ :=
  match group.window pageSize with
  | none => 0
  | some w => n - w

/-- The row of a hit of `n` blocks: the window real, the null block below it. -/
def HitRow (n : ℕ) (row : List ℕ) : Prop :=
  row.length = n ∧ ∃ real, row = replicate (windowLow pageSize group n) 0 ++ real ∧
    ∀ b ∈ real, b ≠ 0

theorem HitRow.nil : HitRow pageSize group 0 [] := by
  refine ⟨rfl, [], ?_, by simp⟩
  rw [windowLow]
  cases group.window pageSize <;> simp

theorem heldOfHit_eq (n : ℕ) :
    n - blocksHeldOfConnectorHit pageSize group n = windowLow pageSize group n := by
  rw [blocksHeldOfConnectorHit, windowLow]
  cases group.window pageSize with
  | none => simp [blocksHeldOfHit]
  | some w =>
    simp only [blocksHeldOfHit]
    omega

theorem refsOfRows_loadedRow (n : ℕ) (rows : C → List ℕ) : refsOfRows (loadedRow cfg n rows) = refsOfRows rows := by
  funext k
  simp only [refsOfRows, loadedRow, count_append, count_replicate]
  split_ifs with h0 h1
  · rfl
  · simp at h1
    exact absurd h1.symm h0
  · simp

theorem hitRow_loadedRow (hlen : (rows c).length = blocksHeldOfConnectorHit cfg.blockSize (cfg.group c) n)
    (hreal : ∀ b ∈ rows c, b ≠ 0) : HitRow cfg.blockSize (cfg.group c) n (loadedRow cfg n rows c) := by
  refine ⟨?_, rows c, by rw [loadedRow, heldOfHit_eq], hreal⟩
  have hle : blocksHeldOfConnectorHit cfg.blockSize (cfg.group c) n ≤ n := by
    rw [blocksHeldOfConnectorHit]
    cases (cfg.group c).window cfg.blockSize <;> simp [blocksHeldOfHit]
  rw [loadedRow, length_append, length_replicate, hlen]
  omega

theorem jointHit_ends {masks : C → List Bool} {width : ℕ} (hwidth : ∀ c, (masks c).length = width) :
    Ends ((jointHit cfg masks : PoolEff C H R ℕ) p) (fun n p' => p' = p ∧ n ≤ width ∧
        ∀ c, narrowTo cfg.blockSize ((cfg.group c).groupId, masks c) n = n) (fun _ _ => False) := by
  have hleaves : ∀ leaf ∈ cfg.leaves.map fun c => ((cfg.group c).groupId, masks c),
      leaf.2.length = width := by simpa using fun c _ => hwidth c
  obtain ⟨n, hok, hn, haccept⟩ := longestJointPrefixHit_spec cfg.blockSize_pos hleaves
  rw [jointHit, hok]
  exact ⟨rfl, hn, fun c => haccept _ (mem_map_of_mem (cfg.mem_leaves c))⟩

section

variable [DecidableEq H]

/-- The leaf holds the window of a prefix it accepted, so nothing above it is given up. -/
theorem hitLow_of_accepts (hn : n ≤ desired.length) (h : narrowTo cfg.blockSize ((cfg.group c).groupId,
      residency p (fun _ _ => false) c desired) n = n) : hitLow cfg.blockSize (cfg.group c) p c (desired.take n) =
      windowLow cfg.blockSize (cfg.group c) n := by
  rw [hitLow, windowLow]
  cases hg : cfg.group c with
  | full => rfl
  | slidingWindow w hw =>
    rw [hg] at h
    simp only [AttentionGroup.window, length_take, Nat.min_eq_left hn]
    refine if_pos (all_eq_true.mpr fun x hx => ?_)
    obtain ⟨i, hi⟩ := mem_iff_getElem?.mp hx
    rw [getElem?_drop, getElem?_take] at hi
    split_ifs at hi with hlt
    have := held_of_window_accepts h (by omega) hlt
    rw [residency, getD_eq_getElem?_getD, getElem?_map, hi] at this
    simpa using this

theorem holds_congr (h : p'.prefixCaches = p.prefixCaches) : holds c p' = holds c p := by
  funext x
  rw [holds, holds, h]

theorem findLongestDevicePrefixCacheHit_ends (peers : C → H → Bool) (desired : List H) (p : JengaBlockPool C H) :
    Ends ((findLongestDevicePrefixCacheHit cfg peers desired : PoolEff C H R ℕ) p)
      (fun n p' => p' = p ∧ n ≤ desired.length ∧ ∀ c, narrowTo cfg.blockSize
        ((cfg.group c).groupId, residency p peers c desired) n = n) (fun _ _ => False) := by
  rw [findLongestDevicePrefixCacheHit, bind_get]
  exact jointHit_ends (by simp [residency])

end

end KVTree

variable [DecidableEq C]

def refsOfLeaves (blocks : C → List ℕ) (leaves : List C) : C × ℕ → ℕ :=
  (leaves.map fun c => refsOf c (blocks c)).sum

theorem refsOfLeaves_cons (blocks : C → List ℕ) (c : C) (leaves : List C) :
    refsOfLeaves blocks (c :: leaves) = refsOf c (blocks c) + refsOfLeaves blocks leaves := by
  simp [refsOfLeaves]

theorem refsOfLeaves_apply {leaves : List C} (hnd : leaves.Nodup)
    (k : C × ℕ) : refsOfLeaves blocks leaves k = if k.1 ∈ leaves then refsOfRows blocks k else 0 := by
  induction leaves with
  | nil => simp [refsOfLeaves]
  | cons c leaves ih =>
    obtain ⟨hc, hnd⟩ := nodup_cons.mp hnd
    rw [refsOfLeaves_cons, Pi.add_apply, ih hnd]
    by_cases hk : k.1 = c
    · simp only [refsOf, refsOfRows]
      split_ifs <;> simp_all
    · simp [refsOf, hk]

theorem Passing.next {Q : C → List ℕ → Prop} {start : C → List ℕ} {c : C} {rest : List C} {row : List ℕ}
    (h : Passing Q start (c :: rest) rows) (hQ : Q c row) : Passing Q start rest (update rows c row) := by
  obtain ⟨hnot, hnd⟩ := nodup_cons.mp h.nodup
  refine ⟨hnd, fun c' hc' => ?_, fun c' hc' => ?_⟩
  · have hne : c' ≠ c := fun h => hnot (h ▸ hc')
    simpa [hne] using h.todo c' (by simp [hc'])
  · rcases eq_or_ne c' c with rfl | hne
    · simpa using hQ
    · simpa [hne] using h.done c' (by simp [hne, hc'])

namespace KVTree

theorem refsOfLeaves_leaves (cfg : ManagerConfig C H) (blocks : C → List ℕ) :
    refsOfLeaves blocks cfg.leaves = refsOfRows blocks := by
  funext k
  rw [refsOfLeaves_apply cfg.leaves_nodup, if_pos (cfg.mem_leaves _)]

theorem refsOf_le_refsOfRows (blocks : C → List ℕ) (c : C) : refsOf c (blocks c) ≤ refsOfRows blocks := by
  intro k
  by_cases hk : k.1 = c
  · simp only [refsOf, refsOfRows]
    split_ifs <;> simp_all
  · simp [refsOf, hk]

theorem refsOfRows_update_nil (hc : rows c = []) (l : List ℕ) :
    refsOfRows (update rows c l) = refsOfRows rows + refsOf c l := by
  simpa [hc] using refsOfRows_update rows c l

def refsOfPairs (l : List (C × ℕ)) : C × ℕ → ℕ := (l.map fun e => refsOf e.1 [e.2]).sum

theorem refsOf_le_refsOfPairs {l : List (C × ℕ)} {e : C × ℕ} (he : e ∈ l) : refsOf e.1 [e.2] ≤ refsOfPairs l := by
  obtain ⟨l1, l2, rfl⟩ := append_of_mem he
  intro k
  simp only [refsOfPairs, map_append, map_cons, sum_append, sum_cons, Pi.add_apply]
  omega

variable [DecidableEq H]

/-! ### Blocks in hand -/

theorem freeBlocks_ok (hi : p.Inv cfg.geometry) (hc : refsOfRows blocks ≤ live p) :
    ∃ p', (freeBlocks cfg blocks : PoolEff C H R Unit) p = .ok () p' ∧ p'.Inv cfg.geometry ∧
      Trades (live p) (refsOfRows blocks) (live p') 0 := by
  rw [← refsOfLeaves_leaves cfg] at hc ⊢
  obtain ⟨p', hok, hi', ht⟩ := forM_trades (w := fun c => refsOf c (blocks c)) (v := fun _ => 0)
    (fun c _ p hi hc => forM_free_ok (blocks c) hi hc) hi hc
  exact ⟨p', hok, hi', by simpa [refsOfLeaves] using ht⟩

/-- A block that is null, referenced or committed may be touched. -/
def Touchable (p : JengaBlockPool C H) (c : C) (bid : ℕ) : Prop :=
  bid ≠ 0 → p.refCnt c bid ≠ 0 ∨ p.blockHash c bid ≠ none

structure Touching (g : Geometry C) (p₀ p : JengaBlockPool C H) : Prop where
  inv : p.Inv g
  keep : ∀ c b, Touchable p₀ c b → Touchable p c b

theorem Touching.touch {g : Geometry C} {p₀ : JengaBlockPool C H} {b : ℕ} (h : Touching g p₀ p)
    (hb : Touchable p₀ c b) : ∃ p', (touch g c b : PoolEff C H R Unit) p = .ok () p' ∧ Touching g p₀ p' ∧
      Trades (live p) 0 (live p') (refsOf c [b]) := by
  obtain ⟨p', hok, hi', ht, hh, -⟩ := touch_ok h.inv c b (h.keep c b hb)
  refine ⟨p', hok, ⟨hi', fun c' b' hb' h0 => ?_⟩, ht⟩
  refine (h.keep c' b' hb' h0).imp (fun h1 => ?_) fun h1 => by rwa [hh]
  have := ht (c', b')
  simp only [live, h0, if_false, Pi.zero_apply] at this
  omega

theorem touchBlocks_ok (hi : p.Inv cfg.geometry) (ht : ∀ c, ∀ b ∈ blocks c, Touchable p c b) :
    ∃ p', (touchBlocks cfg blocks : PoolEff C H R Unit) p = .ok () p' ∧ p'.Inv cfg.geometry ∧
      Trades (live p) 0 (live p') (refsOfRows blocks) := by
  have hleaf : ∀ c ∈ cfg.leaves, ∀ p1, Touching cfg.geometry p p1 → 0 ≤ live p1 →
      ∃ p2, ((blocks c).forM (touch cfg.geometry c) : PoolEff C H R Unit) p1 = .ok () p2 ∧
        Touching cfg.geometry p p2 ∧ Trades (live p1) 0 (live p2) (refsOf c (blocks c)) := by
    intro c _ p1 h1 _
    rw [refsOf_eq_sum]
    simpa using forM_trades (w := fun _ => 0) (v := fun b => refsOf c [b])
      (fun b hb p2 h2 _ => h2.touch (ht c b hb)) h1 (by simp)
  obtain ⟨p', hok, h', ht'⟩ := forM_trades (w := fun _ => 0) hleaf ⟨hi, fun _ _ h => h⟩ (by simp)
  rw [← refsOfLeaves_leaves cfg]
  exact ⟨p', hok, h'.inv, by simpa [refsOfLeaves] using ht'⟩

/-! ### Drawing blocks for every leaf -/

theorem allocRow_ends (n : ℕ) : ∀ {p : JengaBlockPool C H}, p.Inv cfg.geometry →
    Ends ((allocRow cfg c n : PoolEff C H R (List ℕ)) p) (fun new p' => new.length = n ∧ Drawn cfg.geometry c p new p')
      (fun e p' => e = .pool (.insufficientBlocks c) ∧ ∃ new, new.length < n ∧
        Drawn cfg.geometry c p new p' ∧ ∃ e, p'.allocBlock cfg.geometry c = .error e) := by
  induction n with
  | zero => exact fun {p} hi => ⟨rfl, .nil hi⟩
  | succ n ih =>
    intro p hi
    rcases alloc_cases hi with ⟨bid, p1, hok, hi1, h0, -, ht, -⟩ | ⟨herr, hnone⟩
    · rw [allocRow, bind_of_ok hok]
      refine bind
        ((ih hi1).raises ?_) ?_
      · rintro e p' ⟨he, new, hlen, h, hnone⟩
        exact ⟨he, bid :: new, by simpa using hlen, h.cons h0 ht, hnone⟩
      · rintro new p' ⟨hlen, h⟩
        exact ⟨by simp [hlen], h.cons h0 ht⟩
    · rw [allocRow, bind_of_error herr]
      exact ⟨rfl, [], by simp, .nil hi, hnone⟩

/-- Rows drawn for a demand; when even the first block is wanting, nothing has happened. -/
theorem allocRows_ends {demand : Dict C ℕ} (hi : p.Inv cfg.geometry) :
    Ends ((allocRows cfg demand.entries : PoolEff C H R (C → List ℕ)) p)
      (fun rows p' => p'.Inv cfg.geometry ∧ Trades (live p) 0 (live p') (refsOfRows rows) ∧
        (∀ c, ∀ b ∈ rows c, b ≠ 0) ∧ ∀ e ∈ demand.entries, (rows e.1).length = e.2)
      (fun e p' => ∃ c leak, e = .pool (.insufficientBlocks c) ∧ p'.Inv cfg.geometry ∧
        Trades (live p) 0 (live p') leak ∧ (leak = 0 → p' = p ∧ ∃ n, (c, n + 1) ∈ demand.entries ∧
          ∃ e, p.allocBlock cfg.geometry c = .error e)) := by
  rw [allocRows]
  refine (foldlM (I := fun rows rest p' => (∀ e ∈ rest, demand.get? e.1 = some e.2) ∧
      Passing (fun c row => ∀ n, demand.get? c = some n → row.length = n) (fun _ => []) (rest.map Prod.fst) rows ∧
      (∀ c, ∀ b ∈ rows c, b ≠ 0) ∧ p'.Inv cfg.geometry ∧ Trades (live p) 0 (live p') (refsOfRows rows) ∧
      ((∀ c, rows c = []) → p' = p)) ?_ _ _ p
    ⟨fun e he => Dict.get?_eq_some_iff.mpr he, ⟨demand.nodup, fun _ _ => rfl, fun c hc n hn =>
      absurd (Dict.mem_keys_iff.mpr ⟨n, hn⟩) hc⟩, by simp, hi, by simpa using refl _ _, fun _ => rfl⟩).imp ?_
  · rintro rows ⟨c, n⟩ rest p1 ⟨hmem, hpass, hreal, hi1, ht1, hidle⟩
    obtain ⟨hn, hmem⟩ := forall_mem_cons.mp hmem
    have hrow : rows c = [] := hpass.todo c (by simp)
    have hreal' : ∀ {new : List ℕ}, (∀ b ∈ new, b ≠ 0) →
        ∀ c', ∀ b ∈ update rows c new c', b ≠ 0 := by
      intro new hnew c' b hb
      rcases eq_or_ne c' c with rfl | hne
      · exact hnew b (by simpa using hb)
      · exact hreal c' b (by simpa [hne] using hb)
    have hempty : ∀ {new : List ℕ}, (∀ c', update rows c new c' = []) →
        new = [] ∧ p1 = p := by
      intro new h
      refine ⟨by simpa using h c, hidle fun c' => ?_⟩
      rcases eq_or_ne c' c with rfl | hne
      · exact hrow
      · simpa [hne] using h c'
    have htrade : ∀ {new : List ℕ} {p'}, Drawn cfg.geometry c p1 new p' →
        Trades (live p) 0 (live p') (refsOfRows (update rows c new)) := by
      intro new p' hd
      rw [refsOfRows_update_nil hrow]
      simpa using ht1.seq hd.trade
    refine bind
      ((allocRow_ends n hi1).raises ?_) ?_
    · rintro e p' ⟨rfl, new, hnew, hd, herr⟩
      refine ⟨c, refsOfRows (update rows c new), rfl, hd.inv, htrade hd, fun h0 => ?_⟩
      obtain ⟨rfl, rfl⟩ := hempty (eq_nil_of_refsOfRows (hreal' hd.real) h0)
      obtain ⟨m, rfl⟩ := Nat.exists_eq_succ_of_ne_zero (Nat.ne_of_gt hnew)
      rw [hd.idle rfl] at herr
      exact ⟨hd.idle rfl, m, Dict.get?_eq_some_iff.mp hn, herr⟩
    · rintro new p' ⟨hnew, hd⟩
      refine ⟨hmem, hpass.next fun m hm => ?_, hreal' hd.real, hd.inv, htrade hd, fun h => ?_⟩
      · exact hnew.trans (Option.some.inj (hn.symm.trans hm))
      · obtain ⟨rfl, rfl⟩ := hempty h
        exact hd.idle rfl
  · rintro rows p' ⟨-, hpass, hreal, hi', ht, -⟩
    exact ⟨hi', ht, hreal, fun e he => hpass.done e.1 (by simp) e.2 (Dict.get?_eq_some_iff.mpr he)⟩

/-! ### A hit on the device -/

theorem claimAllHitBlocks_ends (hi : p.Inv cfg.geometry) (hn : n ≤ desired.length)
    (haccept : ∀ c, narrowTo cfg.blockSize ((cfg.group c).groupId, residency p (fun _ _ => false) c desired) n = n) :
    Ends ((claimAllHitBlocks cfg (desired.take n) : PoolEff C H R (C → List ℕ)) p)
      (fun rows p' => p'.Inv cfg.geometry ∧ Trades (live p) 0 (live p') (refsOfRows rows) ∧
        ∀ c, HitRow cfg.blockSize (cfg.group c) n (rows c)) (fun e _ => e = .keyError) := by
  rw [claimAllHitBlocks]
  refine (foldlM (I := fun rows rest p' =>
      Passing (fun c => HitRow cfg.blockSize (cfg.group c) n) (fun _ => []) rest rows ∧
      p'.Inv cfg.geometry ∧ Trades (live p) 0 (live p') (refsOfRows rows) ∧ p'.prefixCaches = p.prefixCaches) ?_ _ _ p
    ⟨passing_leaves .., hi, by simpa using refl _ _, rfl⟩).imp ?_
  · rintro rows c rest p1 ⟨hpass, hi1, ht1, hcache⟩
    refine bind (claimHitBlocks_ends hi1) ?_
    rintro row p2 ⟨hi2, hlen, ⟨real, hrow, hreal⟩, ht2, hcache2⟩
    refine ⟨hpass.next ⟨by simpa [hn] using hlen, real, ?_, hreal⟩, hi2, ?_, hcache2.trans hcache⟩
    · rw [hrow, ← hitLow_of_accepts hn (haccept c)]
      simp [hitLow, holds_congr hcache]
    · rw [refsOfRows_update_nil (hpass.todo c (by simp))]
      simpa using ht1.seq ht2
  · rintro rows p' ⟨hpass, hi', ht, -⟩
    exact ⟨hi', ht, fun c => hpass.done c (by simp)⟩

/-! ### Copying from peers -/

/-- What `_copy_prefix_from_peers` has in hand: a reference for each page held, and the pages to publish among them. -/
def Copying (cfg : ManagerConfig C H) (p₀ : JengaBlockPool C H)
    (acc : List (C × ℕ) × List (H × C × ℕ)) (p : JengaBlockPool C H) : Prop :=
  p.Inv cfg.geometry ∧ Trades (live p₀) 0 (live p) (refsOfPairs acc.1) ∧
    ∀ e ∈ acc.2, e.2 ∈ acc.1 ∧ e.2.2 ≠ 0

theorem Copying.hold {p0 p p' : JengaBlockPool C H} {held : List (C × ℕ)}
    {staged : List (H × C × ℕ)} {bid : ℕ} (h : Copying cfg p0 (held, staged) p)
    (hi : p'.Inv cfg.geometry) (ht : Trades (live p) 0 (live p') (refsOf c [bid])) :
    Copying cfg p0 (held ++ [(c, bid)], staged) p' := by
  refine ⟨hi, ?_, fun e he => ⟨by simp [(h.2.2 e he).1], (h.2.2 e he).2⟩⟩
  simpa [refsOfPairs] using h.2.1.seq ht

theorem tryAlloc_ends (hi : p.Inv cfg.geometry) : Ends ((tryAlloc cfg c : PoolEff C H R (Option ℕ)) p)
      (fun t p' => match t with
        | none => p' = p
        | some bid => p'.Inv cfg.geometry ∧ bid ≠ 0 ∧ Trades (live p) 0 (live p') (refsOf c [bid]))
      (fun _ _ => False) := by
  rw [tryAlloc]
  cases hok : p.allocBlock cfg.geometry c with
  | ok r =>
    obtain ⟨hi', hreal, hzero, hr, -⟩ := allocBlock_spec hi hok
    exact ⟨hi', hreal.ne_zero, trades_of_succ (by rw [hr, hzero])⟩
  | error e =>
    obtain ⟨rfl, -⟩ := hugeNeed_of_error hi hok 0
    exact rfl

variable {peers : C → H → Bool}

theorem copyGroup_ends {p0 : JengaBlockPool C H} (hs : List H) : ∀ acc {p}, Copying cfg p0 acc p →
      Ends ((copyGroup cfg peers c hs acc : PoolEff C H R _) p)
        (fun acc' p' => Copying cfg p0 acc' p') (fun _ _ => False) := by
  induction hs with
  | nil => exact fun acc p h => h
  | cons h hs ih =>
    rintro ⟨held, staged⟩ p hcopy
    rw [copyGroup, bind_get]
    cases hget : (p.prefixCaches c).get? h with
    | some bid =>
      have hhash := (hcopy.1.cache c h bid).mp hget
      obtain ⟨p', hok, hi', ht, -⟩ := touch_ok hcopy.1 c bid fun _ => .inr (by simp [hhash])
      simp only
      rw [bind_of_ok hok]
      exact ih _ (hcopy.hold hi' ht)
    | none =>
      cases hpeer : peers c h with
      | false => exact hcopy
      | true =>
        refine bind (tryAlloc_ends hcopy.1) ?_
        rintro (_ | bid) p' hp'
        · obtain rfl := hp'
          exact hcopy
        · obtain ⟨hi', h0, ht⟩ := hp'
          refine ih _ ⟨hi', (hcopy.hold hi' ht).2.1, fun e he => ?_⟩
          rcases mem_append.mp he with he | he
          · exact (hcopy.hold hi' ht).2.2 e he
          · obtain rfl := mem_singleton.mp he
            simp [h0]

/-- A referenced block is published, or the assertion about it fails; counts stay. -/
theorem commitBlock_ends {h : H} {bid : ℕ} (hi : p.Inv cfg.geometry) (href : p.refCnt c bid ≠ 0) :
    Ends ((commitBlock c h bid : PoolEff C H R Unit) p) (fun _ p' => p'.Inv cfg.geometry ∧ live p' = live p)
      (fun e p' => p' = p ∧ e.isInsufficient = false) := by
  by_cases hnew : p.blockHash c bid = none ∧ (p.prefixCaches c).get? h = none
  · obtain ⟨p', hok, hi', hl⟩ := commitBlock_ok hi href hnew.1 hnew.2
    rw [hok]
    exact ⟨hi', hl⟩
  · rw [Dict.get?_eq_none_iff] at hnew
    simp only [commitBlock, callPool, commitIntoPrefixCache]
    split_ifs with h0 h1 h2
    · exact ⟨rfl, rfl⟩
    · exact ⟨rfl, rfl⟩
    · exact ⟨rfl, rfl⟩
    · exact absurd ⟨not_not.mp h1, h2⟩ hnew

theorem forM_freePair_ok (l : List (C × ℕ)) (hi : p.Inv cfg.geometry) (hc : refsOfPairs l ≤ live p) :
    ∃ p', (l.forM (fun e => free cfg.geometry e.1 e.2) : PoolEff C H R Unit) p = .ok () p' ∧
      p'.Inv cfg.geometry ∧ Trades (live p) (refsOfPairs l) (live p') 0 := by
  obtain ⟨p', hok, hi', ht⟩ := forM_trades (l := l) (v := fun _ => 0)
    (fun e _ p hi hc => free_ok hi e.1 e.2 (ref_ne_zero_of_mem hc (by simp))) hi hc
  exact ⟨p', hok, hi', by simpa [refsOfPairs] using ht⟩

theorem copyPrefixFromPeers_ends {hitHashes : List H} (hi : p.Inv cfg.geometry) :
    Ends ((copyPrefixFromPeers cfg peers hitHashes : PoolEff C H R Unit) p)
      (fun _ p' => p'.Inv cfg.geometry ∧ live p' = live p)
      (fun e p' => p'.Inv cfg.geometry ∧ live p' = live p ∧ e.isInsufficient = false) := by
  rw [copyPrefixFromPeers]
  refine bind ((foldlM
    (I := fun acc _ p' => Copying cfg p acc p') (E := fun _ _ => False) ?_ cfg.leaves ([], []) p
    ⟨hi, by simpa [refsOfPairs] using refl _ _, by simp⟩).raises fun _ _ h => h.elim) ?_
  · intro acc c rest p1 h
    exact copyGroup_ends _ acc h
  · rintro ⟨held, staged⟩ p1 ⟨hi1, ht1, hstaged⟩
    have hc1 : refsOfPairs held ≤ live p1 := ht1.covered (fun k => Nat.zero_le _)
    have hgive : ∀ {p2 : JengaBlockPool C H}, p2.Inv cfg.geometry → live p2 = live p1 →
        ∃ p3, (held.forM (fun e => free cfg.geometry e.1 e.2) : PoolEff C H R Unit) p2 = .ok () p3 ∧
          p3.Inv cfg.geometry ∧ live p3 = live p := by
      intro p2 hi2 hl
      obtain ⟨p3, hok, hi3, ht3⟩ := forM_freePair_ok held hi2 (by rwa [hl])
      refine ⟨p3, hok, hi3, funext fun k => ?_⟩
      have h1 := ht1 k
      have h2 := ht3 k
      rw [hl] at h2
      simp only [Pi.zero_apply] at h1 h2
      omega
    refine cleanup (Q := fun _ p2 => p2.Inv cfg.geometry ∧ live p2 = live p1)
      (E := fun e p2 => (p2.Inv cfg.geometry ∧ live p2 = live p1) ∧ e.isInsufficient = false) ?_ ?_ ?_
    · refine (forM (I := fun rest p2 => (∀ e ∈ rest, e.2 ∈ held ∧ e.2.2 ≠ 0) ∧
        p2.Inv cfg.geometry ∧ live p2 = live p1) ?_ staged p1 ⟨hstaged, hi1, rfl⟩).imp
        (fun _ _ h => h.2)
      rintro ⟨h, c, bid⟩ rest p2 ⟨hrest, hi2, hl2⟩
      obtain ⟨hheld, h0⟩ := hrest (h, c, bid) (by simp)
      have href : p2.refCnt c bid ≠ 0 := ref_ne_zero_of_mem
        (by rw [hl2]; exact le_trans (refsOf_le_refsOfPairs hheld) hc1) (by simp) h0
      refine (commitBlock_ends hi2 href).mono ?_ ?_
      · rintro _ p3 ⟨hi3, hl3⟩
        exact ⟨(forall_mem_cons.mp hrest).2, hi3, hl3.trans hl2⟩
      · rintro e p3 ⟨rfl, he⟩
        exact ⟨⟨hi2, hl2⟩, he⟩
    · rintro _ p2 ⟨hi2, hl2⟩
      obtain ⟨p3, hok, hi3, hl3⟩ := hgive hi2 hl2
      rw [hok]
      exact ⟨hi3, hl3⟩
    · rintro e p2 ⟨⟨hi2, hl2⟩, he⟩
      obtain ⟨p3, hok, hi3, hl3⟩ := hgive hi2 hl2
      rw [hok]
      exact ⟨hi3, hl3, he⟩

theorem claimLongestHit_ends (hi : p.Inv cfg.geometry) :
    Ends ((do
        let n ← findLongestDevicePrefixCacheHit cfg (fun _ _ => false) desired
        let rows ← claimAllHitBlocks cfg (desired.take n)
        pure (rows, n) : PoolEff C H R ((C → List ℕ) × ℕ)) p)
      (fun r p' => p'.Inv cfg.geometry ∧ Trades (live p) 0 (live p') (refsOfRows r.1) ∧
        ∀ c, HitRow cfg.blockSize (cfg.group c) r.2 (r.1 c))
      KvError.Other := by
  refine bind ((findLongestDevicePrefixCacheHit_ends _ desired p).raises fun _ _ h => h.elim) ?_
  rintro n _ ⟨rfl, hn, haccept⟩
  refine bind ((claimAllHitBlocks_ends hi hn haccept).raises ?_) fun _ _ h => h
  rintro e p' rfl
  rfl

theorem lookupDevicePrefixCacheHit_ends (hi : p.Inv cfg.geometry) :
    Ends ((lookupDevicePrefixCacheHit cfg peers desired : PoolEff C H R ((C → List ℕ) × ℕ)) p)
      (fun r p' => p'.Inv cfg.geometry ∧ Trades (live p) 0 (live p') (refsOfRows r.1) ∧
        ∀ c, HitRow cfg.blockSize (cfg.group c) r.2 (r.1 c)) KvError.Other := by
  rw [lookupDevicePrefixCacheHit]
  split_ifs with hlast hcopy
  · exact ⟨hi, by simpa using refl _ _, fun c => .nil _ _⟩
  · refine bind ((findLongestDevicePrefixCacheHit_ends peers desired p).raises fun _ _ h => h.elim) ?_
    rintro n _ ⟨rfl, -, -⟩
    refine bind ((copyPrefixFromPeers_ends hi).raises fun _ _ h => h.2.2) ?_
    rintro _ p1 ⟨hi1, hl1⟩
    rw [← hl1]
    exact claimLongestHit_ends hi1
  · exact claimLongestHit_ends hi

/-! ### Publishing what a transfer brought -/

theorem commitOnloadedRow_ends : ∀ (bids : List ℕ) (hs : List H) {p : JengaBlockPool C H},
    p.Inv cfg.geometry → refsOf c bids ≤ live p →
    Ends ((commitOnloadedRow c bids hs : PoolEff C H R Unit) p) (fun _ p' => p'.Inv cfg.geometry ∧ live p' = live p)
      KvError.Other
  | [], [], _, hi, _ => ⟨hi, rfl⟩
  | [], _ :: _, _, _, _ => rfl
  | _ :: _, [], _, _, _ => rfl
  | bid :: bids, h :: hs, p, hi, hc => by
    rw [commitOnloadedRow, bind_get]
    have hc' : refsOf c bids ≤ live p := by
      rw [refsOf_cons] at hc
      exact le_trans (by simp) hc
    split_ifs with hnew
    · have href := ref_ne_zero_of_mem hc (by simp) hnew.2.2
      refine bind ((commitBlock_ends hi href).raises fun _ _ h => h.2) ?_
      rintro _ p1 ⟨hi1, hl1⟩
      rw [← hl1] at hc' ⊢
      exact commitOnloadedRow_ends bids hs hi1 hc'
    · exact commitOnloadedRow_ends bids hs hi hc'

theorem commitOnloadedBlocks_ends {hs : List H} (hi : p.Inv cfg.geometry) (hc : refsOfRows blocks ≤ live p) :
    Ends ((commitOnloadedBlocks cfg blocks hs : PoolEff C H R Unit) p)
      (fun _ p' => p'.Inv cfg.geometry ∧ live p' = live p) KvError.Other := by
  refine Ends.forM (I := fun _ p' => p'.Inv cfg.geometry ∧ live p' = live p) ?_ _ p ⟨hi, rfl⟩
  rintro c rest p1 ⟨hi1, hl1⟩
  rw [← hl1] at hc ⊢
  exact commitOnloadedRow_ends _ _ hi1 (le_trans (refsOf_le_refsOfRows blocks c) hc)

def pinsOf (pending : List (PendingTransfer C H)) : C × ℕ → ℕ :=
  (pending.map fun t => refsOfRows t.blocks).sum

theorem pinTransfer_ok (commitHashes : Option (List H))
    (hi : p.Inv cfg.geometry) (ht : ∀ c, ∀ b ∈ blocks c, Touchable p c b) :
    ∃ t p', (pinTransfer cfg blocks commitHashes : PoolEff C H R _) p = .ok t p' ∧
      p'.Inv cfg.geometry ∧ Trades (live p) 0 (live p') (pinsOf t.toList) := by
  rw [pinTransfer]
  split_ifs with hempty
  · exact ⟨none, p, rfl, hi, by simpa [pinsOf] using refl _ _⟩
  · obtain ⟨p', hok, hi', ht'⟩ := touchBlocks_ok hi ht
    exact ⟨_, p', bind_of_ok hok, hi', by simpa [pinsOf] using ht'⟩

/-! ### A hit of the connector -/

/-- The demand that staging raised on is one that the admission test had accepted. -/
theorem not_canSatisfyDemand {demand : Dict C ℕ} (hi : p.Inv cfg.geometry)
    (hmem : (c, n + 1) ∈ demand.entries) (herr : ∃ e, p.allocBlock cfg.geometry c = .error e) :
    p.canSatisfyDemand cfg.geometry demand false = false := by
  obtain ⟨e, herr⟩ := herr
  obtain ⟨-, hneed⟩ := hugeNeed_of_error hi herr n
  rw [← Bool.not_eq_true, canSatisfyDemand_iff hi]
  refine fun h => hneed (le_trans ?_ h)
  refine single_le_sum ?_ _ (mem_map_of_mem hmem)
  simp only [mem_map, forall_exists_index, and_imp]
  rintro _ e - rfl
  exact hugeNeed_nonneg

/-- Fresh blocks with a reference each, pinned once more while the copy is in flight. Staging that raises keeps what it
    drew. -/
theorem lookupConnectorPrefixCacheHit_ends {env : CallEnv C H} (hi : p.Inv cfg.geometry) :
    Ends ((lookupConnectorPrefixCacheHit cfg env desired : PoolEff C H R (ConnectorHit C H)) p)
      (fun r p' => p'.Inv cfg.geometry ∧ Trades (live p) 0 (live p') (refsOfRows r.blocks + pinsOf r.pending.toList) ∧
        ∀ c, HitRow cfg.blockSize (cfg.group c) r.numLoaded (r.blocks c))
      (fun e p' => e.isInsufficient = true → ∃ c leak, e = .pool (.insufficientBlocks c) ∧
        p'.Inv cfg.geometry ∧ Trades (live p) 0 (live p') leak ∧ leak ≠ 0) := by
  have hmiss : ∀ r, r = (ConnectorHit.miss : ConnectorHit C H) → p.Inv cfg.geometry ∧
      Trades (live p) 0 (live p) (refsOfRows r.blocks + pinsOf r.pending.toList) ∧
      ∀ c, HitRow cfg.blockSize (cfg.group c) r.numLoaded (r.blocks c) := by
    rintro r rfl
    refine ⟨hi, ?_, fun c => .nil _ _⟩
    simpa [ConnectorHit.miss, pinsOf] using refl (live p) 0
  rw [lookupConnectorPrefixCacheHit]
  split_ifs with h0
  · exact hmiss _ rfl
  refine bind ((jointHit_ends fun c => env.lookup_length c desired).raises fun _ _ h => h.elim) ?_
  rintro n _ ⟨rfl, hn, -⟩
  split_ifs with hn0
  · exact hmiss _ rfl
  simp only [bind_get]
  split_ifs with hroom
  · exact hmiss _ rfl
  refine bind ((allocRows_ends hi).raises ?_) ?_
  · rintro e p' ⟨c, leak, rfl, hi', ht, hleak⟩ -
    refine ⟨c, leak, rfl, hi', ht, fun h => ?_⟩
    obtain ⟨rfl, m, hmem, herr⟩ := hleak h
    exact hroom (not_canSatisfyDemand hi hmem herr)
  · rintro rows p1 ⟨hi1, ht1, hreal, hlen⟩
    have hrefs : refsOfRows (loadedRow cfg n rows) = refsOfRows rows := refsOfRows_loadedRow n rows
    have hhit : ∀ c, HitRow cfg.blockSize (cfg.group c) n (loadedRow cfg n rows c) := fun c =>
      hitRow_loadedRow (hlen _ (mem_map_of_mem (cfg.mem_leaves c))) (hreal c)
    have hc1 : refsOfRows rows ≤ live p1 := ht1.covered (fun k => Nat.zero_le _)
    cases env.load with
    | refused =>
      obtain ⟨p2, hok, hi2, ht2⟩ := freeBlocks_ok hi1 hc1
      simp only
      rw [bind_of_ok hok]
      refine ⟨hi2, ?_, (hmiss _ rfl).2.2⟩
      simpa [ConnectorHit.miss, pinsOf] using ht1.trans ht2
    | complete =>
      refine bind ((commitOnloadedBlocks_ends hi1 (by rwa [hrefs])).raises ?_) ?_
      · intro e p' he h
        rw [he] at h
        cases h
      · rintro _ p2 ⟨hi2, hl2⟩
        refine ⟨hi2, ?_, hhit⟩
        rw [hl2, hrefs]
        simpa [pinsOf] using ht1
    | pending =>
      have htouch : ∀ c, ∀ b ∈ loadedRow cfg n rows c, Touchable p1 c b := by
        intro c b hb h0
        refine .inl (ref_ne_zero_of_mem (le_trans (refsOf_le_refsOfRows _ c) ?_) hb h0)
        rwa [hrefs]
      obtain ⟨t, p2, hok, hi2, ht2⟩ := pinTransfer_ok (some (desired.take n)) hi1 htouch
      simp only
      rw [bind_of_ok hok]
      refine ⟨hi2, ?_, hhit⟩
      rw [hrefs]
      simpa using ht1.seq ht2

end KVTree

end MojoProse.KvCache
