import MojoProse.KvCache.JengaRows

/-! What the calls of the manager do.

    `Moves` says how one call for a request on a replica may change the state: references are traded
    between the pool, the rows of the request, the pins of pending transfers and what the call has in
    hand, and nothing of another request changes. Each part of a call has one such lemma. -/

namespace MojoProse.KvCache.JengaBlockManager
open Schemes Support Pipelines KVGroup KVTree Ends Function TokenBuffer
variable {C H R : Type} {cfg : ManagerConfig C H} {r : R} {ρ : ℕ} {s s' s'' : JengaBlockManager C H R} {a b d : C × ℕ → ℕ}
  {p' : JengaBlockPool C H} {st : RequestCacheState H}

section
variable (s : JengaBlockManager C H R)

def rowsOf (r : R) : C → List ℕ := fun c => s.rows c r

def pins (ρ : ℕ) : C × ℕ → ℕ := pinsOf (s.pendingTransfers ρ)

def processed (r : R) : ℕ := (s.contexts r).tokens.processedLength

def active (r : R) : ℤ := (s.contexts r).tokens.activeLength

end

theorem stateOf_ok (hst : s.requests r = some st) : (stateOf r : ManagerEff C H R _) s = .ok st s := by
  rw [stateOf, bind_get, hst]
  rfl

theorem stateOf_error (h : s.requests r = none) : (stateOf r : ManagerEff C H R _) s = .error (.unclaimed r) s := by
  rw [stateOf, bind_get, h]
  rfl

theorem onTokens_ends [DecidableEq R] {f : TokenBuffer → Except String TokenBuffer} : Ends ((onTokens r f : ManagerEff C H R Unit) s)
      (fun _ s' => ∃ t, f (s.contexts r).tokens = .ok t ∧ s' = { s with
        contexts := update s.contexts r { s.contexts r with tokens := t } })
      KvError.Other := by
  rw [onTokens, bind_get]
  cases hf : f (s.contexts r).tokens with
  | error m => exact rfl
  | ok t => exact ⟨t, rfl, rfl⟩

theorem computeHashesForRequest_ends [DecidableEq R] (hst : s.requests r = some st) :
    Ends ((computeHashesForRequest cfg r : ManagerEff C H R (List H)) s)
      (fun hashes s' => s' = { s with
        requests := update s.requests r (some { st with hashes }) })
      KvError.Other := by
  rw [computeHashesForRequest, bind_of_ok (stateOf_ok hst), bind_get]
  cases cfg.computeBlockHashes (s.contexts r) st.hashes with
  | error m => exact rfl
  | ok new => exact rfl

@[simp] theorem rowsOf_update [DecidableEq R] (pools : ℕ → JengaBlockPool C H) (rows : C → List ℕ) :
    rowsOf { s with pools, rows := fun c => update (s.rows c) r (rows c) } r = rows := by
  funext c
  simp [rowsOf]

variable [DecidableEq C] [DecidableEq H]

/-- One call for request `r` on replica `ρ`, with `a` in hand before and `b` after. -/
structure Moves (cfg : ManagerConfig C H) (r : R) (ρ : ℕ) (s : JengaBlockManager C H R)
    (a : C × ℕ → ℕ) (s' : JengaBlockManager C H R) (b : C × ℕ → ℕ) : Prop where
  inv : ∀ ρ', (s'.pools ρ').Inv cfg.geometry
  trade : Trades (live (s.pools ρ)) (refsOfRows (s.rowsOf r) + s.pins ρ + a)
    (live (s'.pools ρ)) (refsOfRows (s'.rowsOf r) + s'.pins ρ + b)
  elsewhere : ∀ ρ', ρ' ≠ ρ → Trades (live (s.pools ρ')) (s.pins ρ') (live (s'.pools ρ')) (s'.pins ρ')
  others : ∀ r', r' ≠ r → s'.rowsOf r' = s.rowsOf r' ∧ s'.requests r' = s.requests r' ∧
    s'.contexts r' = s.contexts r'

theorem Moves.refl (hi : ∀ ρ', (s.pools ρ').Inv cfg.geometry) (a : C × ℕ → ℕ) : Moves cfg r ρ s a s a :=
  ⟨hi, .refl _ _, fun _ _ => .refl _ _, fun _ _ => ⟨rfl, rfl, rfl⟩⟩

theorem Moves.trans (h : Moves cfg r ρ s a s' b) (h' : Moves cfg r ρ s' b s'' d) : Moves cfg r ρ s a s'' d := by
  refine ⟨h'.inv, h.trade.trans h'.trade, fun ρ' hρ => (h.elsewhere ρ' hρ).trans (h'.elsewhere ρ' hρ), fun r' hr => ?_⟩
  obtain ⟨h1, h2, h3⟩ := h.others r' hr
  obtain ⟨h1', h2', h3'⟩ := h'.others r' hr
  exact ⟨h1'.trans h1, h2'.trans h2, h3'.trans h3⟩

/-- Sound pools, whose counts cover what the request, the pins and the call hold. -/
structure Backed (cfg : ManagerConfig C H) (r : R) (ρ : ℕ) (s : JengaBlockManager C H R) (a : C × ℕ → ℕ) : Prop where
  inv : ∀ ρ', (s.pools ρ').Inv cfg.geometry
  pins : ∀ ρ', s.pins ρ' ≤ live (s.pools ρ')
  rows : refsOfRows (s.rowsOf r) + s.pins ρ + a ≤ live (s.pools ρ)

theorem Backed.rows_le (hb : Backed cfg r ρ s a) : refsOfRows (s.rowsOf r) ≤ live (s.pools ρ) :=
  (le_self_add.trans le_self_add).trans hb.rows

theorem Moves.backed (h : Moves cfg r ρ s a s' b) (hb : Backed cfg r ρ s a) : Backed cfg r ρ s' b := by
  refine ⟨h.inv, fun ρ' => ?_, h.trade.covered hb.rows⟩
  rcases eq_or_ne ρ' ρ with rfl | hne
  · exact (le_add_self.trans le_self_add).trans (h.trade.covered hb.rows)
  · exact (h.elsewhere ρ' hne).covered (hb.pins ρ')

section

variable (hi : ∀ ρ', (s.pools ρ').Inv cfg.geometry)
include hi

theorem update_inv (hp : p'.Inv cfg.geometry) : ∀ ρ', (update s.pools ρ p' ρ').Inv cfg.geometry :=
  (forall_update_iff s.pools fun _ (p : JengaBlockPool C H) => p.Inv cfg.geometry).mpr ⟨hp, fun ρ' _ => hi ρ'⟩

theorem Moves.of_pool (hp : p'.Inv cfg.geometry) (ht : Trades (live (s.pools ρ)) a (live p') b) :
    Moves cfg r ρ s a { s with pools := update s.pools ρ p' } b := by
  refine ⟨update_inv hi hp, ?_, fun ρ' hρ => ?_, fun _ _ => ⟨rfl, rfl, rfl⟩⟩
  · simp only [update_self]
    refine ht.exchange ?_
    ac_rfl
  · simp only [update_of_ne hρ]
    exact .refl _ _

theorem Moves.of_track (pending : List (PendingTransfer C H))
    (a : C × ℕ → ℕ) : Moves cfg r ρ s (a + pinsOf pending)
      { s with
        pendingTransfers := update s.pendingTransfers ρ (s.pendingTransfers ρ ++ pending) }
      a := by
  have happend : pinsOf (s.pendingTransfers ρ ++ pending) = s.pins ρ + pinsOf pending := by
    simp [pins, pinsOf]
  refine ⟨hi, (Trades.refl _ 0).exchange ?_, fun ρ' hρ => ?_, fun _ _ => ⟨rfl, rfl, rfl⟩⟩
  · simp only [pins, update_self, happend]
    ac_rfl
  · simpa [pins, hρ] using Trades.refl _ _

end

/-- A call that moves pins of transfers and nothing of a request. -/
structure PinMoves (cfg : ManagerConfig C H) (s s' : JengaBlockManager C H R) : Prop where
  inv : ∀ ρ, (s'.pools ρ).Inv cfg.geometry
  trade : ∀ ρ, Trades (live (s.pools ρ)) (s.pins ρ) (live (s'.pools ρ)) (s'.pins ρ)
  rows : s'.rows = s.rows
  requests : s'.requests = s.requests
  contexts : s'.contexts = s.contexts

theorem PinMoves.refl (hi : ∀ ρ, (s.pools ρ).Inv cfg.geometry) : PinMoves cfg s s :=
  ⟨hi, fun _ => .refl _ _, rfl, rfl, rfl⟩

theorem PinMoves.trans (h : PinMoves cfg s s') (h' : PinMoves cfg s' s'') : PinMoves cfg s s'' :=
  ⟨h'.inv, fun ρ => (h.trade ρ).trans (h'.trade ρ), h'.rows.trans h.rows,
    h'.requests.trans h.requests, h'.contexts.trans h.contexts⟩

theorem PinMoves.rowsOf (h : PinMoves cfg s s') (r : R) : s'.rowsOf r = s.rowsOf r := by
  funext c
  rw [JengaBlockManager.rowsOf, JengaBlockManager.rowsOf, h.rows]

theorem PinMoves.moves (h : PinMoves cfg s s') (a : C × ℕ → ℕ) : Moves cfg r ρ s a s' a := by
  refine ⟨h.inv, (h.trade ρ).exchange ?_, fun ρ' _ => h.trade ρ',
    fun r' _ => ⟨h.rowsOf r', by rw [h.requests], by rw [h.contexts]⟩⟩
  rw [h.rowsOf]
  ac_rfl

theorem PinMoves.of_replica {still : List (PendingTransfer C H)}
    (hi : ∀ ρ', (s.pools ρ').Inv cfg.geometry) (hp : p'.Inv cfg.geometry)
    (ht : Trades (live (s.pools ρ)) (s.pins ρ) (live p') (pinsOf still)) :
    PinMoves cfg s
      { s with
        pools := update s.pools ρ p'
        pendingTransfers := update s.pendingTransfers ρ still } := by
  refine ⟨update_inv hi hp, fun ρ' => ?_, rfl, rfl, rfl⟩
  rcases eq_or_ne ρ' ρ with rfl | hne
  · simpa [pins] using ht
  · simpa [pins, hne] using Trades.refl _ _

theorem pollPending_ends {landed : ℕ → Bool} : ∀ (pending : List (PendingTransfer C H)) (i : ℕ)
    {p : JengaBlockPool C H}, p.Inv cfg.geometry → pinsOf pending ≤ live p →
    Ends ((pollPending cfg landed i pending : PoolEff C H R _) p) (fun still p' => p'.Inv cfg.geometry ∧
        Trades (live p) (pinsOf pending) (live p') (pinsOf still)) KvError.Other := by
  have hcons : ∀ (t : PendingTransfer C H) (rest : List (PendingTransfer C H)),
      pinsOf (t :: rest) = refsOfRows t.blocks + pinsOf rest := by
    intro t rest
    simp [pinsOf]
  intro pending
  induction pending with
  | nil => exact fun i p hi _ => ⟨hi, .refl _ _⟩
  | cons t rest ih =>
    intro i p hi hc
    rw [hcons] at hc ⊢
    rw [pollPending]
    cases hland : landed i with
    | true =>
      have hct : refsOfRows t.blocks ≤ live p := le_trans (by simp) hc
      have hunpin : ∀ {p1 : JengaBlockPool C H}, p1.Inv cfg.geometry → live p1 = live p →
          Ends ((do
              freeBlocks cfg t.blocks
              pollPending cfg landed (i + 1) rest : PoolEff C H R _) p1)
            (fun still p' => p'.Inv cfg.geometry ∧
              Trades (live p) (refsOfRows t.blocks + pinsOf rest) (live p') (pinsOf still))
            KvError.Other := by
        intro p1 hi1 hl1
        rw [← hl1] at hc hct ⊢
        obtain ⟨p2, hok, hi2, ht2⟩ := freeBlocks_ok hi1 hct
        rw [bind_of_ok hok]
        refine (ih (i + 1) hi2 (by simpa using ht2.covers hc)).imp ?_
        rintro still p' ⟨hi', ht⟩
        exact ⟨hi', by simpa using ht2.seq ht⟩
      cases t.commitHashes with
      | none => exact hunpin hi rfl
      | some hashes =>
        refine bind (commitOnloadedBlocks_ends hi hct) ?_
        rintro _ p1 ⟨hi1, hl1⟩
        exact hunpin hi1 hl1
    | false =>
      refine bind (ih (i + 1) hi (le_trans (by simp) hc)) ?_
      rintro still p' ⟨hi', ht⟩
      refine ⟨hi', ?_⟩
      rw [hcons]
      simpa [add_comm (refsOfRows t.blocks)] using ht.frame (refsOfRows t.blocks)

theorem pollReplica_ends {landed : ℕ → ℕ → Bool} (hi : ∀ ρ', (s.pools ρ').Inv cfg.geometry)
    (hpins : s.pins ρ ≤ live (s.pools ρ)) :
    Ends ((pollReplica cfg landed ρ : ManagerEff C H R Unit) s) (fun _ s' => PinMoves cfg s s') KvError.Other := by
  rw [pollReplica, bind_get]
  refine bind (Q := fun still s' => ∃ p', s' = { s with pools := update s.pools ρ p' } ∧
    p'.Inv cfg.geometry ∧ Trades (live (s.pools ρ)) (s.pins ρ) (live p') (pinsOf still))
    (zoom ((pollPending_ends _ 0 (hi ρ) hpins).imp ?_)) ?_
  · rintro still p' ⟨hi', ht⟩
    exact ⟨p', rfl, hi', ht⟩
  · rintro still _ ⟨p', rfl, hi', ht⟩
    exact .of_replica hi hi' ht

theorem pollTransfers_ends (landed : ℕ → ℕ → Bool) (hi : ∀ ρ, (s.pools ρ).Inv cfg.geometry)
    (hpins : ∀ ρ, s.pins ρ ≤ live (s.pools ρ)) :
    Ends ((pollTransfers cfg landed : ManagerEff C H R Unit) s) (fun _ s' => PinMoves cfg s s') KvError.Other := by
  refine forM (I := fun _ s' => PinMoves cfg s s') ?_ _ s (.refl hi)
  intro ρ rest s1 hm
  exact (pollReplica_ends hm.inv ((hm.trade ρ).covered (hpins ρ))).imp (fun _ _ h => hm.trans h)

def SameRequest (r : R) (st : RequestCacheState H) (s s' : JengaBlockManager C H R) : Prop :=
  s'.rowsOf r = s.rowsOf r ∧ s'.contexts r = s.contexts r ∧
    ∃ hashes, s'.requests r = some { st with hashes }

/-- Only the staging of connector pages raises `InsufficientBlocksError`, and then references are left behind. -/
def Leaks (cfg : ManagerConfig C H) (r : R) (ρ : ℕ) (st : RequestCacheState H) (s : JengaBlockManager C H R)
    (e : KvError C R) (s' : JengaBlockManager C H R) : Prop :=
  e.isInsufficient = true → (∃ c, e = .pool (.insufficientBlocks c)) ∧
    SameRequest r st s s' ∧ ∃ leak, leak ≠ 0 ∧ Moves cfg r ρ s 0 s' leak

theorem Leaks.of_other {e : KvError C R} (h : e.isInsufficient = false) : Leaks cfg r ρ st s e s' := by
  intro he
  rw [h] at he
  cases he

variable [DecidableEq R]

section
variable (hi : ∀ ρ', (s.pools ρ').Inv cfg.geometry)
include hi

theorem Moves.of_tree {t : TreeState C H} (hp : t.pool.Inv cfg.geometry)
    (ht : Trades (live (s.pools ρ)) (refsOfRows (s.rowsOf r) + a) (live t.pool) (refsOfRows t.rows + b)) :
    Moves cfg r ρ s a
      { s with
        pools := update s.pools ρ t.pool
        rows := fun c => update (s.rows c) r (t.rows c) } b := by
  refine ⟨update_inv hi hp, ?_, fun ρ' hρ => ?_, fun r' hr => ⟨?_, rfl, rfl⟩⟩
  · simp only [update_self]
    refine ht.exchange ?_
    rw [rowsOf_update]
    ac_rfl
  · simp only [update_of_ne hρ]
    exact .refl _ _
  · funext c
    simp [rowsOf, hr]

theorem Moves.of_request (a : C × ℕ → ℕ) (st : RequestCacheState H) :
    Moves cfg r ρ s a { s with requests := update s.requests r (some st) } a :=
  ⟨hi, .refl _ _, fun _ _ => .refl _ _, fun r' hr => ⟨rfl, by simp [hr], rfl⟩⟩

theorem Moves.of_context (a : C × ℕ → ℕ) (ctx : TextContext) :
    Moves cfg r ρ s a { s with contexts := update s.contexts r ctx } a :=
  ⟨hi, .refl _ _, fun _ _ => .refl _ _, fun r' hr => ⟨rfl, rfl, by simp [hr]⟩⟩

end

/-- What a loop over the rows of the request gives, with `a` in hand before it and `b` after. -/
theorem onTree_ends {m : TreeEff C H R Unit} {Q : (C → List ℕ) → Prop} (hi : ∀ ρ', (s.pools ρ').Inv cfg.geometry)
    (hm : Ends (m ⟨s.pools ρ, s.rowsOf r⟩) (fun _ t => t.pool.Inv cfg.geometry ∧ Q t.rows ∧
        Trades (live (s.pools ρ)) (refsOfRows (s.rowsOf r) + a) (live t.pool) (refsOfRows t.rows + b))
      KvError.Other) : Ends ((onTree ρ r m : ManagerEff C H R Unit) s)
      (fun _ s' => Moves cfg r ρ s a s' b ∧ s'.requests = s.requests ∧ s'.contexts = s.contexts ∧ Q (s'.rowsOf r))
      KvError.Other := by
  refine zoom (hm.imp ?_)
  rintro _ ⟨p', rows'⟩ ⟨hi', hQ, ht⟩
  refine ⟨.of_tree hi hi' ht, rfl, rfl, ?_⟩
  rwa [rowsOf_update]

/-- The blocks past the committed index go, and the token window moves back to it. -/
theorem releaseUncommittedBlocks_ends (hst : s.requests r = some st) (hb : Backed cfg r ρ s a) :
    Ends ((releaseUncommittedBlocks cfg r ρ : ManagerEff C H R Unit) s)
      (fun _ s' => Moves cfg r ρ s a s' a ∧ s'.requests = s.requests ∧
        (∀ c, s'.rowsOf r c = (s.rowsOf r c).take (st.committedIdx / cfg.blockSize)) ∧
        s'.processed r = st.committedIdx ∧ (0 ≤ s.active r → 0 ≤ s'.active r)) KvError.Other := by
  rw [releaseUncommittedBlocks, bind_of_ok (stateOf_ok hst)]
  refine bind (onTree_ends (a := a) (b := a) (Q := fun rows =>
    ∀ c, rows c = (s.rowsOf r c).take (st.committedIdx / cfg.blockSize)) hb.inv
    ((shrinkRows_ends (hb.inv ρ) hb.rows_le).imp ?_)) ?_
  · rintro _ t ⟨hi', hrows, ht⟩
    exact ⟨hi', hrows, ht.frame a⟩
  rintro _ s1 ⟨hm, hreq, hctx, hrows⟩
  simp only [bind_get]
  -- the window is rewound or skipped by the difference
  have hmove : ∀ {t : TokenBuffer}, (t.processedLength : ℤ) = st.committedIdx →
      (0 ≤ s.active r → 0 ≤ t.activeLength) → ∀ s', s' = { s1 with
        contexts := update s1.contexts r { s1.contexts r with tokens := t } } →
      Moves cfg r ρ s a s' a ∧ s'.requests = s.requests ∧
        (∀ c, s'.rowsOf r c = (s.rowsOf r c).take (st.committedIdx / cfg.blockSize)) ∧
        s'.processed r = st.committedIdx ∧ (0 ≤ s.active r → 0 ≤ s'.active r) := by
    rintro t hp hact _ rfl
    refine ⟨hm.trans (.of_context hm.inv a _), hreq, hrows, ?_, ?_⟩
    · simpa [processed] using hp
    · simpa [active] using hact
  split_ifs with hpos hneg
  · refine onTokens_ends.imp ?_
    rintro _ s' ⟨t, hok, hs'⟩
    obtain ⟨hp, hact⟩ := rewindProcessing_ok hok
    refine hmove (by omega) (fun h => ?_) s' hs'
    rw [hctx] at hact
    exact le_trans h hact
  · refine onTokens_ends.imp ?_
    rintro _ s' ⟨t, hok, hs'⟩
    obtain ⟨hp, hact⟩ := skipProcessing_ok hok
    exact hmove (by omega) (fun h => by omega) s' hs'
  · refine ⟨hm, hreq, hrows, ?_, ?_⟩
    · simp only [processed]
      omega
    · simp only [active, hctx]
      exact id

/-- The splice of a hit: its blocks follow the committed ones, and the token window starts behind them. -/
theorem spliceHit_ends {hit loaded : C → List ℕ} {n : ℕ} (hst : s.requests r = some st)
    (hb : Backed cfg r ρ s (refsOfRows hit + refsOfRows loaded)) :
    Ends ((spliceHit cfg r ρ hit loaded n : ManagerEff C H R Unit) s)
      (fun _ s' => Moves cfg r ρ s (refsOfRows hit + refsOfRows loaded) s' 0 ∧
        s'.requests r = some { st with committedIdx := st.committedIdx + n * cfg.blockSize } ∧
        (∀ c, s'.rowsOf r c = (s.rowsOf r c).take (st.committedIdx / cfg.blockSize) ++
          (keptOfHit cfg.blockSize (cfg.group c) (hit c) (loaded c) ++ loaded c)) ∧
        s'.processed r = st.committedIdx + n * cfg.blockSize ∧ 0 ≤ s'.active r)
      KvError.Other := by
  rw [spliceHit]
  refine bind (releaseUncommittedBlocks_ends hst hb) ?_
  rintro _ s1 ⟨hm1, hreq1, hrows1, hproc1, -⟩
  have hb1 := hm1.backed hb
  have hcov : refsOfRows (s1.rowsOf r) + (refsOfRows hit + refsOfRows loaded) ≤ live (s1.pools ρ) :=
    (add_le_add_left le_self_add _).trans hb1.rows
  refine bind (onTree_ends (a := refsOfRows hit + refsOfRows loaded) (b := 0) (Q := fun rows =>
    ∀ c, rows c = s1.rowsOf r c ++ (keptOfHit cfg.blockSize (cfg.group c) (hit c) (loaded c) ++ loaded c)) hb1.inv
    ((extendRows_ends (hb1.inv ρ) hcov).imp ?_)) ?_
  · rintro _ t ⟨hi', hrows, ht⟩
    exact ⟨hi', hrows, by simpa using ht⟩
  rintro _ s2 ⟨hm2, hreq2, hctx2, hrows2⟩
  have hst2 : s2.requests r = some st := by rw [hreq2, hreq1, hst]
  rw [bind_of_ok (stateOf_ok hst2)]
  simp only [setState, bind_modify, bind_get]
  refine bind onTokens_ends ?_
  rintro _ s3 ⟨t, hok, rfl⟩
  obtain ⟨hp, hact⟩ := skipProcessing_ok hok
  rw [bind_get]
  split_ifs with hshort
  · exact rfl
  · refine ⟨?_, ?_, fun c => ?_, ?_, ?_⟩
    · exact hm1.trans (hm2.trans ((Moves.of_request hm2.inv 0 _).trans
        (.of_context (s := { s2 with requests := update s2.requests r _ }) hm2.inv 0 _)))
    · simp
    · rw [← hrows1]
      exact hrows2 c
    · simp only [processed, update_self]
      push_cast at hp
      omega
    · simp only [active, update_self]
      omega

theorem lookupPrefixCaches_ends (env : CallEnv C H) (hst : s.requests r = some st) (hb : Backed cfg r ρ s 0) :
    Ends ((lookupPrefixCaches cfg env r ρ : ManagerEff C H R _) s)
      (fun x s' => Moves cfg r ρ s 0 s' (refsOfRows x.1 + refsOfRows x.2.1.blocks) ∧
        SameRequest r st s s' ∧ ∃ n, x.2.2 = n + x.2.1.numLoaded ∧ ∀ c, HitRow cfg.blockSize (cfg.group c) n (x.1 c) ∧
            HitRow cfg.blockSize (cfg.group c) x.2.1.numLoaded (x.2.1.blocks c)) (Leaks cfg r ρ st s) := by
  rw [lookupPrefixCaches]
  refine bind ((computeHashesForRequest_ends hst).raises fun _ _ => Leaks.of_other) ?_
  rintro hashes _ rfl
  generalize hs1 : ({ s with requests := update s.requests r (some { st with hashes }) } : JengaBlockManager C H R) = s1
  have hm1 : Moves cfg r ρ s 0 s1 0 := hs1 ▸ .of_request hb.inv 0 _
  have hst1 : s1.requests r = some { st with hashes } := by simp [← hs1]
  have hrows1 : s1.rowsOf r = s.rowsOf r := by rw [← hs1]; rfl
  have hctx1 : s1.contexts r = s.contexts r := by rw [← hs1]
  rw [bind_of_ok (stateOf_ok hst1)]
  simp only [bind_get]
  refine bind (Q := fun x s2 => ∃ p2, s2 = { s1 with pools := update s1.pools ρ p2 } ∧
      Moves cfg r ρ s 0 s2 (refsOfRows x.1) ∧ ∀ c, HitRow cfg.blockSize (cfg.group c) x.2 (x.1 c))
    (zoom ((lookupDevicePrefixCacheHit_ends (hm1.inv ρ)).mono ?_ fun _ _ => Leaks.of_other)) ?_
  · rintro ⟨hit, n⟩ p2 ⟨hi2, ht2, hhit⟩
    exact ⟨p2, rfl, hm1.trans (.of_pool hm1.inv hi2 ht2), hhit⟩
  rintro ⟨hit, n⟩ _ ⟨p2, rfl, hm2, hhit⟩
  refine bind (Q := fun x s3 => ∃ p3, s3 = { s1 with pools := update s1.pools ρ p3 } ∧
      Moves cfg r ρ s 0 s3 (refsOfRows hit + (refsOfRows x.blocks + pinsOf x.pending.toList)) ∧
      ∀ c, HitRow cfg.blockSize (cfg.group c) x.numLoaded (x.blocks c))
    (zoom ((lookupConnectorPrefixCacheHit_ends (hm2.inv ρ)).mono ?_ ?_)) ?_
  · rintro loaded p3 ⟨hi3, ht3, hloaded⟩
    refine ⟨p3, by simp, hm2.trans (.of_pool hm2.inv hi3 ?_), hloaded⟩
    simpa [add_comm (refsOfRows hit)] using ht3.frame (refsOfRows hit)
  · intro e p3 h he
    obtain ⟨c, leak, rfl, hi3, ht3, hleak⟩ := h he
    refine ⟨⟨c, rfl⟩, ⟨hrows1, hctx1, hashes, hst1⟩, leak + refsOfRows hit, fun h0 => hleak ?_,
      hm2.trans (.of_pool hm2.inv hi3 (by simpa using ht3.frame (refsOfRows hit)))⟩
    funext k
    have := congrFun h0 k
    simp only [Pi.add_apply, Pi.zero_apply] at this ⊢
    omega
  · rintro loaded _ ⟨p3, rfl, hm3, hloaded⟩
    rw [← add_assoc] at hm3
    exact ⟨hm3.trans (.of_track hm3.inv loaded.pending.toList _), ⟨hrows1, hctx1, hashes, hst1⟩, n, rfl,
      fun c => ⟨hhit c, hloaded c⟩⟩

/-- A hit spliced into a request with no token processed: how many blocks, and its rows. -/
structure Spliced (cfg : ManagerConfig C H) (r : R) (st : RequestCacheState H)
    (s s' : JengaBlockManager C H R) : Prop where
  fresh : s.processed r = 0
  hit : ∃ n m, 0 < n + m ∧
    (∃ hashes, s'.requests r =
      some { st with hashes, committedIdx := st.committedIdx + (n + m) * cfg.blockSize }) ∧
    s'.processed r = st.committedIdx + (n + m) * cfg.blockSize ∧
    ∀ c, ∃ hit loaded, HitRow cfg.blockSize (cfg.group c) n hit ∧
      HitRow cfg.blockSize (cfg.group c) m loaded ∧
      s'.rowsOf r c = (s.rowsOf r c).take (st.committedIdx / cfg.blockSize) ++
        (keptOfHit cfg.blockSize (cfg.group c) hit loaded ++ loaded)
  active : 0 ≤ s'.active r

/-- The branch of `_reuse_blocks_from_prefix_cache` that splices: a hit on the device or in the connector. -/
def findsHit (cfg : ManagerConfig C H) (env : CallEnv C H) (r : R) (ρ : ℕ) (s : JengaBlockManager C H R) : Bool :=
  mayReuse cfg s r && match lookupPrefixCaches cfg env r ρ s with
    | .ok (_, _, numReused) _ => numReused ≠ 0
    | .error _ _ => false

theorem reuseBlocksFromPrefixCache_ends {env : CallEnv C H} (hst : s.requests r = some st) (hb : Backed cfg r ρ s 0) :
    Ends ((reuseBlocksFromPrefixCache cfg env r ρ : ManagerEff C H R Bool) s) (fun _ s' => Moves cfg r ρ s 0 s' 0 ∧
        if findsHit cfg env r ρ s then Spliced cfg r st s s' else SameRequest r st s s') (Leaks cfg r ρ st s) := by
  rw [reuseBlocksFromPrefixCache, bind_get]
  cases hmay : mayReuse cfg s r with
  | false =>
    refine ⟨.refl hb.inv 0, ?_⟩
    rw [findsHit, hmay]
    exact ⟨rfl, rfl, st.hashes, hst⟩
  | true =>
    simp only [Bool.true_eq_false, if_false]
    have hfresh : s.processed r = 0 := by
      simp only [mayReuse, Bool.and_eq_true, decide_eq_true_eq] at hmay
      exact hmay.2
    have hlook := lookupPrefixCaches_ends env hst hb
    rw [findsHit, hmay]
    cases hx : lookupPrefixCaches cfg env r ρ s with
    | error e s1 =>
      rw [hx] at hlook
      rw [bind_of_error hx]
      exact hlook
    | ok x s1 =>
      obtain ⟨hit, loaded, k⟩ := x
      rw [hx] at hlook
      obtain ⟨hm1, ⟨hrows1, hctx1, hashes, hst1⟩, n, hk, hhit⟩ := hlook
      rw [bind_of_ok hx]
      simp only at hk hm1 hhit ⊢
      rcases Nat.eq_zero_or_pos k with rfl | hpos
      · -- nothing was handed over
        have hnil : refsOfRows hit + refsOfRows loaded.blocks = 0 := by
          have hhit0 : hit = fun _ => [] := funext fun c =>
            List.length_eq_zero_iff.mp ((hhit c).1.1.trans (by omega))
          have hloaded0 : loaded.blocks = fun _ => [] := funext fun c =>
            List.length_eq_zero_iff.mp ((hhit c).2.1.trans (by omega))
          simp [hhit0, hloaded0]
        rw [hnil] at hm1
        exact ⟨hm1, hrows1, hctx1, hashes, hst1⟩
      · rw [if_neg hpos.ne']
        refine bind ((spliceHit_ends hst1 (hm1.backed hb)).raises fun _ _ => Leaks.of_other) ?_
        rintro _ s2 ⟨hm2, hst2, hrows2, hproc2, hact2⟩
        subst hk
        refine ⟨hm1.trans hm2, ?_⟩
        simp only [Bool.true_and, decide_eq_true_eq, ne_eq, hpos.ne', not_false_eq_true, if_true]
        refine ⟨hfresh, ⟨n, loaded.numLoaded, hpos, ⟨hashes, hst2⟩, hproc2, fun c => ?_⟩, hact2⟩
        refine ⟨hit c, loaded.blocks c, (hhit c).1, (hhit c).2, ?_⟩
        rw [hrows2, hrows1]

end MojoProse.KvCache.JengaBlockManager
