import MojoProse.KvCache.JengaCapacity
import MojoProse.KvCache.JengaManagerRun

/-! One request served alone, within a budget of blocks for each leaf. -/

namespace MojoProse.KvCache
open Schemes Support Pipelines KVGroup KVTree JengaBlockManager JengaBlockPool List Function

variable {C H R : Type} [DecidableEq C] [DecidableEq H] {env : CallEnv C H}

/-! ### Drawing within the budgets -/

section
variable {g : Geometry C} {budget : C → ℕ} {leaves : List C} {c : C}

def NoCommits (p p' : JengaBlockPool C H) : Prop :=
  ∀ c b x, p'.blockHash c b = some x → p.blockHash c b = some x

theorem KVGroup.appendBlocks_within (hfits : Fits g leaves budget) (hnd : leaves.Nodup)
    (hleaves : ∀ c, c ∈ leaves) (n : ℕ) : ∀ {s : RowState C H}, s.pool.Within g budget →
    (s.pool.inUse g c).card + n ≤ budget c → Ends ((appendBlocks g c n : RowEff C H R Unit) s)
      (fun _ s' => s'.pool.Within g budget ∧ NoCommits s.pool s'.pool ∧
        (s'.pool.inUse g c).card ≤ (s.pool.inUse g c).card + n ∧
        ∀ c', c' ≠ c → (s'.pool.inUse g c').card ≤ (s.pool.inUse g c').card) (fun _ _ => False) := by
  induction n with
  | zero => exact fun {s} h _ => ⟨h, fun _ _ _ h => h, le_rfl, fun _ _ => le_rfl⟩
  | succ n ih =>
    rintro ⟨p, row⟩ (h : p.Within g budget) (hn : (p.inUse g c).card + (n + 1) ≤ budget c)
    obtain ⟨bid, p1, hok, h1, hself, hother⟩ := h.allocBlock hfits hnd hleaves (c := c) (by omega)
    have halloc : (alloc g c : PoolEff C H R ℕ) p = .ok bid p1 := by simp [alloc, callPool, hok]
    have hcommits : NoCommits p p1 := (allocBlock_spec h.inv hok).2.2.2.2.2
    rw [appendBlocks, bind_of_ok (onPool_of_ok halloc), bind_modify]
    refine (ih h1 (by dsimp only; omega)).imp ?_
    rintro _ s' ⟨h', hcommits', hself', hother'⟩
    refine ⟨h', fun c b x hx => hcommits c b x (hcommits' c b x hx), ?_, fun c' hc => ?_⟩
    · exact hself'.trans (by dsimp only; omega)
    · exact (hother' c' hc).trans (hother c' hc)

end

namespace KVTree
variable {cfg : ManagerConfig C H} {budget : C → ℕ} {s : TreeState C H}

theorem growRows_within {n : ℕ} (hfits : Fits cfg.geometry cfg.leaves budget) (h : s.pool.Within cfg.geometry budget)
    (hn : ∀ c, (s.pool.inUse cfg.geometry c).card + (n - (s.rows c).length) ≤ budget c) :
    Ends ((growRows cfg n : TreeEff C H R Unit) s)
      (fun _ s' => s'.pool.Within cfg.geometry budget ∧ NoCommits s.pool s'.pool ∧
        ∀ c, (s'.pool.inUse cfg.geometry c).card ≤ (s.pool.inUse cfg.geometry c).card + (n - (s.rows c).length))
      (fun _ _ => False) := by
  refine (Ends.forM (I := fun rest s' => Passing (fun _ _ => True) s.rows rest s'.rows ∧
      s'.pool.Within cfg.geometry budget ∧ NoCommits s.pool s'.pool ∧
      ∀ c, (s'.pool.inUse cfg.geometry c).card ≤ (s.pool.inUse cfg.geometry c).card +
        if c ∈ rest then 0 else n - (s.rows c).length) ?_ _ s ?_).imp ?_
  · rintro c rest ⟨p1, rows1⟩ ⟨hpass, h1, hcommits, hused⟩
    have hrow : rows1 c = s.rows c := hpass.todo c (by simp)
    have hself := hused c
    rw [if_pos (by simp)] at hself
    refine Ends.zoom ?_
    simp only [grow, bind_get, numBlocksToAllocate, hrow]
    refine (appendBlocks_within hfits cfg.leaves_nodup cfg.mem_leaves _ h1 ?_).imp ?_
    · have := hn c
      simp only at hself ⊢
      omega
    rintro _ ⟨p2, row⟩ ⟨h2, hcommits2, hself2, hother2⟩
    refine ⟨hpass.next trivial, h2, fun c b x hx => hcommits c b x (hcommits2 c b x hx), fun c' => ?_⟩
    rcases eq_or_ne c' c with rfl | hne
    · rw [if_neg (nodup_cons.mp hpass.nodup).1]
      simp only at hself hself2 ⊢
      omega
    · have hold := hused c'
      simp only [mem_cons, hne, false_or] at hold
      exact (hother2 c' hne).trans hold
  · refine ⟨passing_leaves .., h, fun _ _ _ h => h, fun c => ?_⟩
    rw [if_pos (cfg.mem_leaves c)]
    exact le_rfl
  · rintro _ s' ⟨-, h', hcommits, hused⟩
    exact ⟨h', hcommits, fun c => by simpa using hused c⟩

/-! ### The rows of a request that is alone in its pool -/

/-- The pool and the rows after a step at `p` tokens: the pool references what the rows hold and nothing else. -/
structure Alone (cfg : ManagerConfig C H) (budget : C → ℕ) (p : ℕ) (s : TreeState C H) : Prop where
  within : s.pool.Within cfg.geometry budget
  refs : live s.pool = refsOfRows s.rows
  nulls : ∀ c, NullsBelow (windowLow cfg.blockSize (cfg.group c) (p / cfg.blockSize)) (s.rows c)
  le_budget : ∀ c, (s.pool.inUse cfg.geometry c).card ≤ budget c
  le_row : cfg.enablePrefixCaching = true →
    ∀ c, (s.pool.inUse cfg.geometry c).card ≤ (s.rows c).length
  uncommitted : cfg.enablePrefixCaching = false → ∀ c b, s.pool.blockHash c b = none

/-- The slots of a row less those the window has slid past after a step at `p` tokens; with prefix caching these stay,
    as commits. -/
def slotsInUse (cfg : ManagerConfig C H) (c : C) (required p : ℕ) : ℕ :=
  if cfg.enablePrefixCaching then required
  else required - windowLow cfg.blockSize (cfg.group c) (p / cfg.blockSize)

variable {p n : ℕ} {peers : C → H → Bool}

/-- The blocks a row still needs are within what its leaf may have in use. -/
theorem Alone.inUse_add_le (h : Alone cfg budget p s) {c : C} (hbud : slotsInUse cfg c n p ≤ budget c) :
    (s.pool.inUse cfg.geometry c).card + (n - (s.rows c).length) ≤ budget c := by
  rcases le_or_gt n (s.rows c).length with hle | hgt
  · rw [Nat.sub_eq_zero_of_le hle, add_zero]
    exact h.le_budget c
  rw [slotsInUse] at hbud
  cases hcache : cfg.enablePrefixCaching with
  | true =>
    have := h.le_row hcache c
    rw [hcache, if_pos rfl] at hbud
    omega
  | false =>
    rw [hcache, if_neg (by simp)] at hbud
    obtain ⟨real, hrow, hreal⟩ := (h.nulls c).eq_replicate
    -- what is in use is referenced, so it is one of the real blocks of the row
    have hsub : s.pool.inUse cfg.geometry c ⊆ real.toFinset := by
      intro b hb
      have href := ((mem_inUse h.within.inv).mp hb).resolve_right (by
        simp [h.uncommitted hcache])
      have hne := (h.within.inv.typed_of_ref c b href).1.ne_zero
      have hlive := congrFun h.refs (c, b)
      simp only [live, refsOfRows, hne, if_false, hrow, count_append] at hlive
      rw [mem_toFinset, ← count_pos_iff]
      have : (replicate (windowLow cfg.blockSize (cfg.group c) (p / cfg.blockSize)) 0).count b = 0 :=
        count_eq_zero.mpr fun hmem => hne (eq_of_mem_replicate hmem)
      omega
    have hcard := (Finset.card_le_card hsub).trans (toFinset_card_le real)
    rw [hrow, length_append, length_replicate] at hgt ⊢
    omega

theorem Alone.growRows (h : Alone cfg budget p s) (hfits : Fits cfg.geometry cfg.leaves budget)
    (hbud : ∀ c, slotsInUse cfg c n p ≤ budget c) :
    ∃ s', (growRows cfg n : TreeEff C H R Unit) s = .ok () s' ∧ Alone cfg budget p s' ∧
      ∀ c, n ≤ (s'.rows c).length := by
  have hdemand := fun c => h.inUse_add_le (hbud c)
  obtain ⟨_, s', hgrow, hwithin, hcommits, hused⟩ := (growRows_within hfits h.within hdemand).ok
  have hgrown := growRows_ends (R := R) (n := n) h.within.inv
  rw [hgrow] at hgrown
  obtain ⟨-, hrows, htrade⟩ := hgrown
  refine ⟨s', hgrow, ⟨hwithin, htrade.eq_of_eq h.refs, ?_, ?_, ?_, ?_⟩, ?_⟩
  · intro c
    obtain ⟨new, hrow, -, hreal⟩ := hrows c
    rw [hrow]
    exact (h.nulls c).append hreal
  · intro c
    exact (hused c).trans (hdemand c)
  · intro hcache c
    obtain ⟨new, hrow, hlen, -⟩ := hrows c
    rw [hrow, length_append, hlen]
    exact (hused c).trans (Nat.add_le_add_right (h.le_row hcache c) _)
  · intro hcache c b
    by_contra hne
    obtain ⟨x, hx⟩ := Option.ne_none_iff_exists'.mp hne
    have := hcommits c b x hx
    rw [h.uncommitted hcache] at this
    cases this
  · intro c
    obtain ⟨new, hrow, hlen, -⟩ := hrows c
    rw [hrow, length_append, hlen]
    omega

theorem stepKeeps_within (cfg : ManagerConfig C H) (budget used : C → ℕ) :
    StepKeeps cfg.geometry fun q : JengaBlockPool C H =>
      q.Within cfg.geometry budget ∧ ∀ c, (q.inUse cfg.geometry c).card ≤ used c where
  inv _ h := h.1.inv
  free _ _ _ _ h href hok := by
    obtain ⟨hwithin, hle⟩ := h.1.freeBlock href hok
    exact ⟨hwithin, fun c => (hle c).trans (h.2 c)⟩
  publish _ _ _ _ _ _ h href hnone hok := by
    obtain ⟨hwithin, hle⟩ := h.1.getOrCommit href hnone hok
    exact ⟨hwithin, fun c => (hle c).trans (h.2 c)⟩

theorem freeKeeps_within (cfg : ManagerConfig C H) (budget used : C → ℕ) (hashes : C → ℕ → Option H) :
    FreeKeeps cfg.geometry fun q : JengaBlockPool C H =>
      (q.Within cfg.geometry budget ∧ ∀ c, (q.inUse cfg.geometry c).card ≤ used c) ∧ q.blockHash = hashes where
  inv _ h := h.1.1.inv
  free q _ _ _ h href hok := by
    obtain ⟨_, hok', -, -, hhash, -⟩ := freeBlock_spec h.1.1.inv href
    rw [hok] at hok'
    cases hok'
    exact ⟨(stepKeeps_within cfg budget used).free q _ _ _ h.1 href hok, hhash.trans h.2⟩

theorem Alone.commitRows (h : Alone cfg budget p s) (hcache : cfg.enablePrefixCaching = true)
    {hashes : List H} {lastBlock : ℕ} (hlast : lastBlock ≤ hashes.length) :
    ∃ s', (commitRows cfg hashes lastBlock : TreeEff C H R Unit) s = .ok () s' ∧
      Alone cfg budget p s' ∧ ∀ c, (s'.rows c).length = (s.rows c).length := by
  obtain ⟨_, s', hok, ⟨hwithin, hused⟩, hrows, htrade⟩ := (forLeaves_ends_alone
    (Q := fun c row => SameNulls (s.rows c) row) ⟨h.within, fun _ => le_rfl⟩ h.refs.ge fun c q hq hc =>
      commit_ok (stepKeeps_within cfg budget _) hq hc hlast).ok
  refine ⟨s', hok, ⟨hwithin, htrade.eq_of_eq h.refs, fun c => (h.nulls c).sameNulls (hrows c),
    fun c => (hused c).trans (h.le_budget c), fun _ c => ?_, fun hoff => ?_⟩, fun c => (hrows c).1⟩
  · rw [(hrows c).1]
    exact (hused c).trans (h.le_row hcache c)
  · rw [hcache] at hoff
    cases hoff

theorem Alone.advanceRows (h : Alone cfg budget p s) {p' : ℕ} (hp : p ≤ p')
    (hslots : ∀ c, p' / cfg.blockSize ≤ (s.rows c).length) :
    ∃ s', (KVTree.advanceRows cfg (p' / cfg.blockSize) : TreeEff C H R Unit) s = .ok () s' ∧
      Alone cfg budget p' s' := by
  have hmono : p / cfg.blockSize ≤ p' / cfg.blockSize := Nat.div_le_div_right hp
  have hleaves : Ends ((KVTree.advanceRows cfg (p' / cfg.blockSize) : TreeEff C H R Unit) s) _
      (fun _ _ => False) := forLeaves_ends_alone
    (Q := fun c row => row.length = (s.rows c).length ∧
      NullsBelow (windowLow cfg.blockSize (cfg.group c) (p' / cfg.blockSize)) row)
    (P := fun q => (q.Within cfg.geometry budget ∧
      ∀ c, (q.inUse cfg.geometry c).card ≤ (s.pool.inUse cfg.geometry c).card) ∧ q.blockHash = s.pool.blockHash)
    ⟨⟨h.within, fun _ => le_rfl⟩, rfl⟩ h.refs.ge (by
      intro c q hq hc
      have hnulls := h.nulls c
      rw [windowLow] at hnulls ⊢
      rw [advance]
      cases hw : (cfg.group c).window cfg.blockSize with
      | none =>
        rw [hw] at hnulls
        exact ⟨hq, ⟨rfl, hnulls⟩, .refl _ _⟩
      | some w =>
        rw [hw] at hnulls
        have hn : p' / cfg.blockSize - w ≤ (s.rows c).length := (Nat.sub_le _ _).trans (hslots c)
        obtain ⟨j, s1, hj, hok, hq1, hrow, hfst, ht⟩ := nullBelow_ok (R := R)
          (freeKeeps_within cfg budget _ _) (p' / cfg.blockSize - w) (s := ⟨q, s.rows c⟩) hq hc hn
        have hnew := hnulls.nulled hn hrow hfst hj
        simp only [max_eq_right (Nat.sub_le_sub_right hmono w)] at hnew
        simp only [hok]
        exact ⟨hq1, ⟨hrow.1, hnew⟩, ht⟩)
  obtain ⟨_, s', hok, ⟨⟨hwithin, hused⟩, hhash⟩, hrows, htrade⟩ := hleaves.ok
  refine ⟨s', hok, hwithin, htrade.eq_of_eq h.refs, fun c => (hrows c).2,
    fun c => (hused c).trans (h.le_budget c), fun hcache c => ?_, fun hcache c b => ?_⟩
  · rw [(hrows c).1]
    exact (hused c).trans (h.le_row hcache c)
  · rw [hhash]
    exact h.uncommitted hcache c b

/-! ### A call that finds nothing to reuse -/

omit [DecidableEq C] [DecidableEq H] in
theorem jointHit_miss {masks : C → List Bool} {width : ℕ}
    (hmasks : ∀ c, masks c = replicate width false) (p : JengaBlockPool C H) :
    (jointHit cfg masks : PoolEff C H R ℕ) p = .ok 0 p := by
  have hwidth : ∀ c, (masks c).length = width := fun c => by rw [hmasks]; simp
  obtain ⟨n, p', hok, rfl, -, haccept⟩ := (jointHit_ends hwidth).ok
  suffices n = 0 by rw [hok, this]
  by_contra hn
  cases hleaves : cfg.leaves with
  | nil =>
    rw [jointHit, hleaves] at hok
    cases hok
    exact hn rfl
  | cons c rest =>
    have haccept := haccept c
    have hheld : (masks c).getD (n - 1) false = true := by
      cases hg : cfg.group c with
      | full =>
        rw [hg] at haccept
        exact held_of_full_accepts haccept (by omega)
      | slidingWindow w hw =>
        rw [hg] at haccept
        have := blocksInWindow_pos hw cfg.blockSize_pos
        exact held_of_window_accepts haccept (by omega) (by omega)
    rw [hmasks, getD_eq_getElem?_getD, getElem?_replicate] at hheld
    split_ifs at hheld
    all_goals cases hheld

variable {p : JengaBlockPool C H}

omit [DecidableEq C] in
theorem residency_miss (hcold : ∀ c h, holds c p h = false)
    (hpeers : ∀ c h, peers c h = false) (c : C) (desired : List H) :
    residency p peers c desired = replicate desired.length false := by
  rw [residency, eq_replicate_iff]
  refine ⟨by simp, fun b hb => ?_⟩
  obtain ⟨h, -, rfl⟩ := mem_map.mp hb
  rw [hcold, hpeers]
  rfl

theorem claimAllHitBlocks_nil (p : JengaBlockPool C H) :
    (claimAllHitBlocks cfg [] : PoolEff C H R (C → List ℕ)) p = .ok (fun _ => []) p := by
  refine foldlM_idle cfg.leaves fun c _ => ?_
  have hnil : (claimHitBlocks cfg.geometry c cfg.blockSize (cfg.group c) [] : PoolEff C H R (List ℕ)) p =
      .ok [] p := by
    rw [claimHitBlocks]
    cases (cfg.group c).window cfg.blockSize with
    | none => rfl
    | some w =>
      simp only [length_nil, Nat.zero_sub, drop_zero, all_nil, if_true]
      rfl
  rw [bind_of_ok hnil]
  exact congrArg (EStateM.Result.ok · p) (update_eq_self c _)

theorem copyPrefixFromPeers_nil (peers : C → H → Bool) (p : JengaBlockPool C H) :
    (copyPrefixFromPeers cfg peers [] : PoolEff C H R Unit) p = .ok () p := by
  have hnil : (cfg.leaves.foldlM (fun acc c =>
      copyGroup cfg peers c (claimableHashes cfg.blockSize (cfg.group c) []) acc) ([], []) :
      PoolEff C H R (List (C × ℕ) × List (H × C × ℕ))) p = .ok ([], []) p := by
    refine foldlM_idle cfg.leaves fun c _ => ?_
    have hnone : claimableHashes cfg.blockSize (cfg.group c) ([] : List H) = [] := by
      rw [claimableHashes]
      cases (cfg.group c).window cfg.blockSize <;> simp
    rw [hnone]
    rfl
  rw [copyPrefixFromPeers, bind_of_ok hnil]
  rfl

theorem lookupDevicePrefixCacheHit_miss
    (hcold : ∀ c h, holds c p h = false) (hpeers : ∀ c h, peers c h = false) (desired : List H) :
    (lookupDevicePrefixCacheHit cfg peers desired : PoolEff C H R _) p = .ok (fun _ => [], 0) p := by
  have hfind : ∀ {peers : C → H → Bool}, (∀ c h, peers c h = false) →
      (findLongestDevicePrefixCacheHit cfg peers desired : PoolEff C H R ℕ) p = .ok 0 p := fun hpeers => by
    rw [findLongestDevicePrefixCacheHit, bind_get]
    exact jointHit_miss (residency_miss hcold hpeers · desired) p
  rw [lookupDevicePrefixCacheHit]
  split_ifs
  · rfl
  · rw [bind_of_ok (hfind hpeers), take_zero, bind_of_ok (copyPrefixFromPeers_nil peers p),
      bind_of_ok (hfind fun _ _ => rfl)]
    exact bind_of_ok (claimAllHitBlocks_nil p)
  · rw [bind_of_ok (hfind fun _ _ => rfl)]
    exact bind_of_ok (claimAllHitBlocks_nil p)

def NoHits (env : CallEnv C H) : Prop :=
  ∀ c desired, env.lookup c desired = replicate desired.length false

theorem lookupConnectorPrefixCacheHit_miss (henv : NoHits env) (desired : List H)
    (p : JengaBlockPool C H) : (lookupConnectorPrefixCacheHit cfg env desired : PoolEff C H R _) p = .ok .miss p := by
  rw [lookupConnectorPrefixCacheHit]
  split_ifs
  · rfl
  · rw [bind_of_ok (jointHit_miss (henv · desired) p)]
    rfl

end KVTree

namespace JengaBlockManager
variable [DecidableEq R] {cfg : ManagerConfig C H} {r : R} {ρ : ℕ} {s s' : JengaBlockManager C H R}
  {st : RequestCacheState H} {budget : C → ℕ} {p : ℕ}

omit [DecidableEq C] [DecidableEq H] [DecidableEq R] in
theorem onReplica_idle {α : Type} {m : PoolEff C H R α} {a : α} (h : m (s.pools ρ) = .ok a (s.pools ρ)) :
    onReplica ρ m s = .ok a s := by
  simp [onReplica, zoom, h]

omit [DecidableEq R] in
theorem pollTransfers_idle (landed : ℕ → ℕ → Bool) (hidle : ∀ ρ, s.pendingTransfers ρ = []) :
    (pollTransfers cfg landed : ManagerEff C H R Unit) s = .ok () s := by
  refine forM_idle _ fun ρ _ => ?_
  have hpool : onReplica ρ (pollPending cfg (landed ρ) 0 (s.pendingTransfers ρ)) s =
      (.ok [] s : EStateM.Result (KvError C R) _ _) := by
    rw [hidle]
    exact onReplica_idle rfl
  rw [pollReplica, bind_get, bind_of_ok hpool, ← hidle ρ]
  refine congrArg (EStateM.Result.ok PUnit.unit) ?_
  dsimp only
  rw [update_eq_self]

def withTree (s : JengaBlockManager C H R) (ρ : ℕ) (r : R) (t : TreeState C H) : JengaBlockManager C H R :=
  { s with
    pools := update s.pools ρ t.pool
    rows := fun c => update (s.rows c) r (t.rows c) }

section
omit [DecidableEq C] [DecidableEq H]

omit [DecidableEq R] in
theorem trackPending_none (s : JengaBlockManager C H R) (ρ : ℕ) : trackPending ρ none s = .ok () s := by
  refine congrArg (EStateM.Result.ok PUnit.unit) ?_
  dsimp only
  rw [Option.toList_none, append_nil, update_eq_self]

theorem computeHashesForRequest_ok {new : List H} (hst : s.requests r = some st)
    (hnew : cfg.computeBlockHashes (s.contexts r) st.hashes = .ok new) : ∃ s1 : JengaBlockManager C H R,
      { s with requests := update s.requests r (some { st with hashes := st.hashes ++ new }) } = s1 ∧
        s1.requests r = some { st with hashes := st.hashes ++ new } ∧
        computeHashesForRequest cfg r s = .ok (st.hashes ++ new) s1 := by
  refine ⟨_, rfl, update_self .., ?_⟩
  rw [computeHashesForRequest, bind_of_ok (stateOf_ok hst), bind_get, hnew]
  rfl

theorem onTree_of_ok {α : Type} {m : TreeEff C H R α} {a : α} {t : TreeState C H}
    (h : m ⟨s.pools ρ, s.rowsOf r⟩ = .ok a t) : onTree ρ r m s = .ok a (s.withTree ρ r t) :=
  zoom_of_ok h

@[simp] theorem pools_withTree (t : TreeState C H) : (s.withTree ρ r t).pools ρ = t.pool := update_self _ _ _

@[simp] theorem rowsOf_withTree (t : TreeState C H) : (s.withTree ρ r t).rowsOf r = t.rows := rowsOf_update ..

end

/-- The request is claimed, alone on its replica, after a step at `p` tokens. -/
structure Serving (cfg : ManagerConfig C H) (budget : C → ℕ) (r : R) (ρ p : ℕ)
    (s : JengaBlockManager C H R) : Prop where
  claimed : ∃ st, s.requests r = some st ∧ st.replicaIdx = ρ
  idle : ∀ ρ', s.pendingTransfers ρ' = []
  alone : Alone cfg budget p ⟨s.pools ρ, s.rowsOf r⟩

/-- With nothing cached and no hit of the connector, only the hashes of the request are new. -/
theorem reuseBlocksFromPrefixCache_miss (henv : NoHits env)
    (hhash : ∀ ctx hs, ∃ new, cfg.computeBlockHashes ctx hs = .ok new)
    (hst : s.requests r = some st) (hcold : s.processed r = 0 → ∀ ρ' c h, holds c (s.pools ρ') h = false) :
    ∃ st', st'.replicaIdx = st.replicaIdx ∧ st'.committedIdx = st.committedIdx ∧
      reuseBlocksFromPrefixCache cfg env r ρ s = .ok true { s with requests := update s.requests r (some st') } := by
  rw [reuseBlocksFromPrefixCache, bind_get]
  cases hmay : mayReuse cfg s r with
  | false =>
    refine ⟨st, rfl, rfl, ?_⟩
    rw [if_pos rfl, ← hst, update_eq_self]
    rfl
  | true =>
    have hzero : s.processed r = 0 := by
      simp only [mayReuse, Bool.and_eq_true, decide_eq_true_eq] at hmay
      exact hmay.2
    obtain ⟨new, hnew⟩ := hhash (s.contexts r) st.hashes
    refine ⟨{ st with hashes := st.hashes ++ new }, rfl, rfl, ?_⟩
    rw [if_neg (by simp)]
    obtain ⟨s1, hs1, hst1, hcompute⟩ := computeHashesForRequest_ok hst hnew
    have hcold1 : ∀ ρ' c h, holds c (s1.pools ρ') h = false := by
      rw [← hs1]
      exact hcold hzero
    have hlook : lookupPrefixCaches cfg env r ρ s = .ok (fun _ => [], .miss, 0) s1 := by
      have hpeers : ∀ c h, peersHold cfg s1 ρ c h = false := by
        intro c h
        simp [peersHold, hcold1]
      rw [lookupPrefixCaches, bind_of_ok hcompute, bind_of_ok (stateOf_ok hst1), bind_get,
        bind_of_ok (onReplica_idle (lookupDevicePrefixCacheHit_miss (hcold1 ρ) hpeers _))]
      refine (bind_of_ok (onReplica_idle (lookupConnectorPrefixCacheHit_miss henv _ _))).trans ?_
      exact bind_of_ok (trackPending_none s1 ρ)
    rw [bind_of_ok hlook, hs1]
    rfl

section

variable (h : Serving cfg budget r ρ p s)
include h

/-- `alloc` returns, with a slot in every row for each token the forward reaches. -/
theorem Serving.alloc (henv : NoHits env)
    (hhash : ∀ ctx hs, ∃ new, cfg.computeBlockHashes ctx hs = .ok new) (hfits : Fits cfg.geometry cfg.leaves budget)
    (hbud : ∀ c, slotsInUse cfg c (numRequiredBlocks cfg (s.contexts r)) p ≤ budget c)
    (hcold : s.processed r = 0 → ∀ ρ' c h, holds c (s.pools ρ') h = false) :
    ∃ s', alloc cfg env r s = .ok true s' ∧ Serving cfg budget r ρ p s' ∧
      s'.contexts = s.contexts ∧ ∀ c, numRequiredBlocks cfg (s.contexts r) ≤ (s'.rowsOf r c).length := by
  obtain ⟨st, hst, rfl⟩ := h.claimed
  obtain ⟨st', hρ, -, hreuse⟩ := reuseBlocksFromPrefixCache_miss henv hhash hst hcold
  have hdemand : (s.pools st.replicaIdx).canSatisfyDemand cfg.geometry
      (blocksToAllocate cfg { s with requests := update s.requests r (some st') } r) false = true := by
    refine h.alone.within.canSatisfyDemand hfits cfg.leaves_nodup cfg.mem_leaves ?_ fun e he => ?_
    · simp [blocksToAllocate, map_map, comp_def]
    · obtain ⟨c, -, rfl⟩ := mem_map.mp he
      exact h.alone.inUse_add_le (hbud c)
  obtain ⟨t, hgrow, halone, hslots⟩ := h.alone.growRows hfits hbud
  have hrun : alloc cfg env r s = .ok true
      (withTree { s with requests := update s.requests r (some st') } st.replicaIdx r t) := by
    rw [alloc, bind_of_ok (stateOf_ok hst), bind_of_ok (pollTransfers_idle _ h.idle),
      bind_of_ok (stateOf_ok hst), bind_of_ok hreuse, bind_get]
    rw [if_neg (by simp [hdemand])]
    exact bind_of_ok (onTree_of_ok hgrow)
  refine ⟨_, hrun, ⟨⟨st', by simp [withTree], hρ⟩, h.idle, by simpa using halone⟩, rfl, fun c => ?_⟩
  rw [rowsOf_withTree]
  exact hslots c

section

variable (hhash : ∀ ctx hs, ∃ new, cfg.computeBlockHashes ctx hs = .ok new)
include hhash

theorem Serving.stepCommit
    :
    ∃ s', stepCommit cfg r s = .ok () s' ∧ Serving cfg budget r ρ p s' ∧
      s'.contexts = s.contexts ∧ ∀ c, (s'.rowsOf r c).length = (s.rowsOf r c).length := by
  obtain ⟨st, hst, rfl⟩ := h.claimed
  rw [stepCommit, bind_of_ok (stateOf_ok hst)]
  cases hcache : cfg.enablePrefixCaching with
  | false => exact ⟨s, rfl, h, rfl, fun _ => rfl⟩
  | true =>
    obtain ⟨new, hnew⟩ := hhash (s.contexts r) st.hashes
    obtain ⟨s1, hs1, hst1, hcompute⟩ := computeHashesForRequest_ok hst hnew
    have h1 : Serving cfg budget r st.replicaIdx p s1 := hs1 ▸ ⟨⟨_, update_self .., rfl⟩, h.idle, h.alone⟩
    obtain ⟨t, hcommit, halone, hlen⟩ := h1.alone.commitRows hcache
      (min_le_right (numFilledBlocks cfg (s1.contexts r)) (st.hashes ++ new).length)
    rw [if_pos rfl, commitBlocksIntoPrefixCache, bind_of_ok hcompute, bind_of_ok (stateOf_ok hst1), bind_get,
      bind_of_ok (onTree_of_ok hcommit)]
    have hctx1 : s1.contexts = s.contexts := by rw [← hs1]
    have hrows1 : s1.rowsOf r = s.rowsOf r := by
      rw [← hs1]
      rfl
    have halone2 : Alone cfg budget p ⟨(s1.withTree st.replicaIdx r t).pools st.replicaIdx,
        (s1.withTree st.replicaIdx r t).rowsOf r⟩ := by simpa using halone
    have hdone : ∀ (st' : RequestCacheState H) (offloads : ℕ → List (List H)),
        st'.replicaIdx = st.replicaIdx → Serving cfg budget r st.replicaIdx p
          { s1.withTree st.replicaIdx r t with
            requests := update s1.requests r (some st'), pendingOffloads := offloads } :=
      fun st' _ hρ => ⟨⟨st', by simp, hρ⟩, h1.idle, halone2⟩
    have hlen' : ∀ c, ((s1.withTree st.replicaIdx r t).rowsOf r c).length = (s.rowsOf r c).length := by
      intro c
      rw [rowsOf_withTree, hlen, hrows1]
    split_ifs
    · exact ⟨_, rfl, hdone _ _ rfl, hctx1, hlen'⟩
    · exact ⟨_, rfl, hdone _ _ rfl, hctx1, hlen'⟩

theorem Serving.step (hp : p ≤ s.processed r) (hslots : ∀ c, s.processed r / cfg.blockSize ≤ (s.rowsOf r c).length) :
    ∃ s', step cfg r s = .ok () s' ∧ Serving cfg budget r ρ (s.processed r) s' ∧ s'.contexts = s.contexts := by
  obtain ⟨s1, hcommit, h1, hctx, hlen⟩ := h.stepCommit hhash
  obtain ⟨st, hst, rfl⟩ := h1.claimed
  obtain ⟨t, hadvance, halone⟩ := h1.alone.advanceRows hp fun c => by
    rw [hlen c]
    exact hslots c
  refine ⟨s1.withTree st.replicaIdx r t, ?_, ⟨⟨st, hst, rfl⟩, h1.idle, by simpa using halone⟩, hctx⟩
  rw [step, bind_of_ok hcommit, stepAdvance, bind_of_ok (stateOf_ok hst), bind_get, numFilledBlocks, hctx]
  exact onTree_of_ok hadvance

end

end

/-! ### Serving a request to its end -/

/-- The forwards of a request: `alloc`, a forward that leaves the context as given, `step`. -/
def serve (cfg : ManagerConfig C H) (env : CallEnv C H) (r : R) : List TextContext → ManagerEff C H R Unit
  | [] => return
  | ctx :: rest => do
    let _ ← alloc cfg env r
    modify fun s => { s with contexts := update s.contexts r ctx }
    step cfg r
    serve cfg env r rest

/-- A forward processes tokens, and only ones that `alloc` was asked for. -/
def Forward (cfg : ManagerConfig C H) (ctx ctx' : TextContext) : Prop :=
  ctx.tokens.processedLength < ctx'.tokens.processedLength ∧
    (ctx'.tokens.processedLength : ℤ) ≤
      computeSeqLen cfg.numDraftTokens cfg.numDraftTokensPerStep cfg.maxNumInputTokens ctx

instance (cfg : ManagerConfig C H) : DecidableRel (Forward cfg) :=
  fun _ _ => inferInstanceAs (Decidable (_ ∧ _))

omit [DecidableEq C] [DecidableEq H] in
theorem Forward.filled_le {ctx ctx' : TextContext} (h : Forward cfg ctx ctx') :
    ctx'.tokens.processedLength / cfg.blockSize ≤ numRequiredBlocks cfg ctx := by
  have hslots : ctx'.tokens.processedLength ≤ cfg.blockSize * numRequiredBlocks cfg ctx := by
    exact_mod_cast h.2.trans (seqLen_le_numRequiredBlocks ctx)
  exact Nat.div_le_of_le_mul hslots

/-- What a leaf has in use when a forward from this context gets its blocks. -/
def blocksInUse (cfg : ManagerConfig C H) (c : C) (ctx : TextContext) : ℕ :=
  slotsInUse cfg c (numRequiredBlocks cfg ctx) ctx.tokens.processedLength

theorem Serving.serve (henv : NoHits env) (hhash : ∀ ctx hs, ∃ new, cfg.computeBlockHashes ctx hs = .ok new)
    (hfits : Fits cfg.geometry cfg.leaves budget) (ctxs : List TextContext) :
    ∀ {s : JengaBlockManager C H R}, Serving cfg budget r ρ (s.processed r) s →
      (s.contexts r :: ctxs).IsChain (Forward cfg) →
      (∀ ctx ∈ (s.contexts r :: ctxs).dropLast, ∀ c, blocksInUse cfg c ctx ≤ budget c) →
      (s.processed r = 0 → ∀ ρ' c h, holds c (s.pools ρ') h = false) → ∃ s', serve cfg env r ctxs s = .ok () s' := by
  induction ctxs with
  | nil => exact fun {s} _ _ _ _ => ⟨s, rfl⟩
  | cons ctx rest ih =>
    intro s h hchain hbud hcold
    obtain ⟨hforward, hchain⟩ := isChain_cons_cons.mp hchain
    obtain ⟨s1, halloc, h1, hctx1, hslots⟩ := h.alloc henv hhash hfits (hbud _ (by simp)) hcold
    generalize hs2 : ({ s1 with contexts := update s1.contexts r ctx } : JengaBlockManager C H R) = s2
    have hctx2 : s2.contexts r = ctx := by simp [← hs2]
    have hproc : s2.processed r = ctx.tokens.processedLength := by rw [processed, hctx2]
    have h2 : Serving cfg budget r ρ (s.processed r) s2 := by
      rw [← hs2]
      exact ⟨h1.claimed, h1.idle, h1.alone⟩
    obtain ⟨s3, hstep, h3, hctx3⟩ := h2.step hhash (by rw [hproc]; exact hforward.1.le) fun c => by
      rw [hproc, ← hs2]
      exact hforward.filled_le.trans (hslots c)
    have hctx : s3.contexts r = ctx := by rw [hctx3, hctx2]
    have hsame : s3.processed r = s2.processed r := by rw [processed, processed, hctx3]
    have hbud3 : ∀ ctx' ∈ (s3.contexts r :: rest).dropLast, ∀ c, blocksInUse cfg c ctx' ≤ budget c := by
      rw [hctx]
      exact fun ctx' hmem => hbud ctx' (mem_cons_of_mem _ hmem)
    have hmore : s3.processed r ≠ 0 := by
      have := hforward.1
      omega
    obtain ⟨s', hserve⟩ := ih (by rw [hsame]; exact h3) (by rw [hctx]; exact hchain) hbud3
      fun hzero => absurd hzero hmore
    refine ⟨s', ?_⟩
    rw [JengaBlockManager.serve, bind_of_ok halloc, bind_modify, hs2, bind_of_ok hstep]
    exact hserve

end JengaBlockManager

end MojoProse.KvCache
