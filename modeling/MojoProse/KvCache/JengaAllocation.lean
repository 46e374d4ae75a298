import MojoProse.KvCache.JengaManagerSteps

/-! `JengaBlockManager.alloc`: the transfers that landed, the reuse of a prefix, the admission test, and
    the growth of the rows.

    It raises `InsufficientBlocksError` in three places, and they differ in what they leave behind. -/

namespace MojoProse.KvCache.JengaBlockManager
open Schemes Support KVGroup KVTree
variable {C H R : Type} [DecidableEq C] [DecidableEq H] [DecidableEq R] {cfg : ManagerConfig C H}
  {r : R} {ρ : ℕ} {s s' s₁ : JengaBlockManager C H R} {st : RequestCacheState H} {env : CallEnv C H}

section
variable (cfg : ManagerConfig C H) (env : CallEnv C H) (r : R) (ρ : ℕ)

/-- `alloc` up to the admission test. -/
def reusePhase : ManagerEff C H R Bool := do
  pollTransfers cfg env.landed
  reuseBlocksFromPrefixCache cfg env r ρ

def splices (s : JengaBlockManager C H R) : Bool :=
  match pollTransfers cfg env.landed s with
  | .ok _ s₀ => findsHit cfg env r ρ s₀
  | .error _ _ => false

def admissionRefuses
    (s : JengaBlockManager C H R) : Bool :=
  match reusePhase cfg env r ρ s with
  | .ok _ s₁ => !(s₁.pools ρ).canSatisfyDemand cfg.geometry (blocksToAllocate cfg s₁ r) false
  | .error _ _ => false

def Reused (st : RequestCacheState H)
    (s s₁ : JengaBlockManager C H R) : Prop :=
  if splices cfg env r ρ s then Spliced cfg r st s s₁ else SameRequest r st s s₁

end

theorem reusePhase_ends (env : CallEnv C H) (hst : s.requests r = some st) (hb : Backed cfg r ρ s 0) :
    Ends (reusePhase cfg env r ρ s) (fun _ s₁ => Moves cfg r ρ s 0 s₁ 0 ∧ Reused cfg env r ρ st s s₁)
      (Leaks cfg r ρ st s) := by
  have hpoll := pollTransfers_ends env.landed hb.inv hb.pins
  rw [reusePhase]
  cases hp : pollTransfers cfg env.landed s with
  | error e s0 =>
    rw [hp] at hpoll
    rw [bind_of_error hp]
    exact .of_other hpoll
  | ok _ s0 =>
    rw [hp] at hpoll
    have hm0 : Moves cfg r ρ s 0 s0 0 := hpoll.moves 0
    have hrowsOf := hpoll.rowsOf r
    have hctx := hpoll.contexts
    rw [bind_of_ok hp]
    have hsame : ∀ {s'}, SameRequest r st s0 s' → SameRequest r st s s' := by
      rintro s' ⟨h1, h2, h3⟩
      exact ⟨h1.trans hrowsOf, h2.trans (by rw [hctx]), h3⟩
    have hsplices : splices cfg env r ρ s = findsHit cfg env r ρ s0 := by rw [splices, hp]
    refine (reuseBlocksFromPrefixCache_ends (by rw [hpoll.requests, hst]) (hm0.backed hb)).mono ?_ ?_
    · rintro b s₁ ⟨hm1, h⟩
      refine ⟨hm0.trans hm1, ?_⟩
      rw [Reused, hsplices]
      cases hf : findsHit cfg env r ρ s0 with
      | false =>
        rw [hf] at h
        exact hsame h
      | true =>
        rw [hf] at h
        obtain ⟨hfresh, hhit, hact⟩ := h
        rw [hrowsOf] at hhit
        refine ⟨?_, hhit, hact⟩
        simpa [processed, hctx] using hfresh
    · intro e s' h he
      obtain ⟨hc, hsr, leak, hleak, hm⟩ := h he
      exact ⟨hc, hsame hsr, leak, hleak, hm0.trans hm⟩

theorem rollbackPrefixReuse_ends {k : ℕ} (hst : s.requests r = some st) (hb : Backed cfg r ρ s 0) :
    Ends ((rollbackPrefixReuse cfg r ρ k : ManagerEff C H R Unit) s)
      (fun _ s' => Moves cfg r ρ s 0 s' 0 ∧ s'.requests r = some { st with committedIdx := k } ∧
        if st.committedIdx = k then s'.rowsOf r = s.rowsOf r ∧ s'.contexts r = s.contexts r
        else (∀ c, s'.rowsOf r c = (s.rowsOf r c).take (k / cfg.blockSize)) ∧ s'.processed r = k ∧
          (0 ≤ s.active r → 0 ≤ s'.active r))
      KvError.Other := by
  rw [rollbackPrefixReuse, bind_of_ok (stateOf_ok hst)]
  split_ifs with hk
  · subst hk
    exact ⟨.refl hb.inv 0, hst, rfl, rfl⟩
  · have hm1 : Moves cfg r ρ s 0 _ 0 := .of_request hb.inv 0 { st with committedIdx := k }
    refine (releaseUncommittedBlocks_ends (Function.update_self _ _ _) (hm1.backed hb)).imp ?_
    rintro _ s' ⟨hm, hreq, hrows, hproc, hact⟩
    exact ⟨hm1.trans hm, by simp [hreq], hrows, hproc, hact⟩

/-- The rows of the request grown by real blocks. -/
def Grew (r : R) (s s' : JengaBlockManager C H R) : Prop :=
  s'.requests = s.requests ∧ s'.contexts = s.contexts ∧
    ∀ c, ∃ new, s'.rowsOf r c = s.rowsOf r c ++ new ∧ ∀ b ∈ new, b ≠ 0

theorem growRows_step {n : ℕ} (hb : Backed cfg r ρ s 0) : Ends ((onTree ρ r (growRows cfg n) : ManagerEff C H R Unit) s)
      (fun _ s' => Moves cfg r ρ s 0 s' 0 ∧ Grew r s s' ∧ ∀ c, n ≤ (s'.rowsOf r c).length)
      (fun e s' => (∃ c, e = .pool (.insufficientBlocks c)) ∧ Moves cfg r ρ s 0 s' 0 ∧ Grew r s s' ∧
        (s'.rowsOf r = s.rowsOf r → ∃ c, (s.rowsOf r c).length < n ∧
          ∃ e, (s.pools ρ).allocBlock cfg.geometry c = .error e)) := by
  have hrows : ∀ t : TreeState C H, rowsOf { s with
      pools := Function.update s.pools ρ t.pool
      rows := fun c => Function.update (s.rows c) r (t.rows c) } r = t.rows := by
    intro t
    funext c
    simp [rowsOf]
  refine Ends.zoom ((growRows_ends (s := ⟨s.pools ρ, s.rowsOf r⟩) (hb.inv ρ)).mono ?_ ?_)
  · rintro _ t ⟨hi', hnew, ht⟩
    refine ⟨.of_tree hb.inv hi' (by simpa using ht), ⟨rfl, rfl, fun c => ?_⟩, fun c => ?_⟩
    · obtain ⟨new, h1, -, h3⟩ := hnew c
      exact ⟨new, by rw [hrows, h1], h3⟩
    · obtain ⟨new, h1, h2, -⟩ := hnew c
      rw [hrows, h1, List.length_append, h2]
      omega
  · rintro e t ⟨hc, hi', hnew, ht, hsame⟩
    refine ⟨hc, .of_tree hb.inv hi' (by simpa using ht), ⟨rfl, rfl, fun c => ?_⟩, fun h => ?_⟩
    · obtain ⟨new, h1, h3⟩ := hnew c
      exact ⟨new, by rw [hrows, h1], h3⟩
    · rw [hrows] at h
      exact hsame h

/-- What a call that raised `InsufficientBlocksError` left behind. -/
inductive Failure (cfg : ManagerConfig C H) (env : CallEnv C H) (r : R) (ρ : ℕ)
    (st : RequestCacheState H) (s s' : JengaBlockManager C H R) : Prop
  /-- The pages for a hit of the connector ran out: those that were drawn stay referenced. -/
  | staging (refuses : admissionRefuses cfg env r ρ s = false) (same : SameRequest r st s s')
      (leak : C × ℕ → ℕ) (ne_zero : leak ≠ 0) (moves : Moves cfg r ρ s 0 s' leak)
  /-- The admission test refused, and a splice was rolled back. -/
  | refused (refuses : admissionRefuses cfg env r ρ s = true) (moves : Moves cfg r ρ s 0 s' 0)
      (request : if splices cfg env r ρ s then
          s.processed r = 0 ∧ s'.processed r = st.committedIdx ∧ 0 ≤ s'.active r ∧
            (∀ c, ∃ row : List ℕ, s'.rowsOf r c = row.take (st.committedIdx / cfg.blockSize)) ∧
            ∃ hashes, s'.requests r = some { st with hashes }
        else SameRequest r st s s')
  /-- A row ran out while the rows grew: those grown before it stay longer. -/
  | growing (refuses : admissionRefuses cfg env r ρ s = false) (moves : Moves cfg r ρ s 0 s' 0)
      (s₁ : JengaBlockManager C H R) (reused : Reused cfg env r ρ st s s₁) (grew : Grew r s₁ s')
      (longer : s'.rowsOf r ≠ s₁.rowsOf r)

theorem refused_ends {α : Type} (demand : List (C × ℕ)) (hrefuses : admissionRefuses cfg env r ρ s = true)
    (hm1 : Moves cfg r ρ s 0 s₁ 0) (hreused : Reused cfg env r ρ st s s₁) (hb : Backed cfg r ρ s 0) :
    Ends ((do
        rollbackPrefixReuse cfg r ρ st.committedIdx
        throw (.refused demand) : ManagerEff C H R α) s₁)
      (fun _ _ => False)
      (fun e s' => e.isInsufficient = true → Failure cfg env r ρ st s s') := by
  have hfalse : ∀ {e : KvError C R} {P : Prop}, e.isInsufficient = false →
      e.isInsufficient = true → P := by
    intro e P h h'
    rw [h] at h'
    cases h'
  rw [Reused] at hreused
  cases hsp : splices cfg env r ρ s with
  | false =>
    rw [hsp] at hreused
    obtain ⟨hrows1, hctx1, hashes, hst1⟩ := hreused
    refine Ends.bind ((rollbackPrefixReuse_ends hst1 (hm1.backed hb)).raises fun _ _ h => hfalse h) ?_
    rintro _ s' ⟨hm, hst', hsame⟩ -
    rw [if_pos rfl] at hsame
    refine .refused hrefuses (hm1.trans hm) ?_
    rw [hsp]
    exact ⟨hsame.1.trans hrows1, hsame.2.trans hctx1, hashes, hst'⟩
  | true =>
    rw [hsp] at hreused
    obtain ⟨hfresh, ⟨n, m, hpos, ⟨hashes, hst1⟩, -, -⟩, hact⟩ := hreused
    refine Ends.bind ((rollbackPrefixReuse_ends hst1 (hm1.backed hb)).raises fun _ _ h => hfalse h) ?_
    rintro _ s' ⟨hm, hst', hback⟩ -
    have hne : ¬ st.committedIdx + (n + m) * cfg.blockSize = st.committedIdx := by
      have := Nat.mul_pos hpos cfg.blockSize_pos
      omega
    rw [if_neg hne] at hback
    obtain ⟨hrows', hproc', hact'⟩ := hback
    refine .refused hrefuses (hm1.trans hm) ?_
    rw [hsp]
    exact ⟨hfresh, hproc', hact' hact, fun c => ⟨_, hrows' c⟩, hashes, hst'⟩

theorem alloc_ends (env : CallEnv C H) (hst : s.requests r = some st) (hρ : st.replicaIdx = ρ)
    (hb : Backed cfg r ρ s 0) : Ends (alloc cfg env r s)
      (fun _ s' => Moves cfg r ρ s 0 s' 0 ∧ ∃ s₁, Reused cfg env r ρ st s s₁ ∧ Grew r s₁ s' ∧
        ∀ c, numRequiredBlocks cfg (s'.contexts r) ≤ (s'.rowsOf r c).length)
      (fun e s' => e.isInsufficient = true → Failure cfg env r ρ st s s') := by
  have hrun : alloc cfg env r s = (do
      let complete ← reusePhase cfg env r ρ
      let s₁ ← get
      let demand := blocksToAllocate cfg s₁ r
      if (s₁.pools ρ).canSatisfyDemand cfg.geometry demand false = false then
        rollbackPrefixReuse cfg r ρ st.committedIdx
        throw (.refused demand.entries)
      onTree ρ r (growRows cfg (numRequiredBlocks cfg (s₁.contexts r)))
      return complete : ManagerEff C H R Bool) s := by
    have hpoll := pollTransfers_ends env.landed hb.inv hb.pins
    subst hρ
    rw [alloc, bind_of_ok (stateOf_ok hst), reusePhase, bind_assoc]
    cases hp : pollTransfers cfg env.landed s with
    | error e s0 => rw [bind_of_error hp, bind_of_error hp]
    | ok _ s0 =>
      rw [hp] at hpoll
      have hst0 : s0.requests r = some st := by rw [hpoll.requests, hst]
      rw [bind_of_ok hp, bind_of_ok hp, bind_of_ok (stateOf_ok hst0)]
  rw [hrun]
  have hphase := reusePhase_ends env hst hb
  cases hp : reusePhase cfg env r ρ s with
  | error e s' =>
    rw [hp] at hphase
    rw [bind_of_error hp]
    intro he
    obtain ⟨-, hsame, leak, hleak, hm⟩ := hphase he
    exact .staging (by rw [admissionRefuses, hp]) hsame leak hleak hm
  | ok complete s₁ =>
    rw [hp] at hphase
    obtain ⟨hm1, hreused⟩ := hphase
    rw [bind_of_ok hp, bind_get]
    have hrefuses : admissionRefuses cfg env r ρ s =
        !(s₁.pools ρ).canSatisfyDemand cfg.geometry (blocksToAllocate cfg s₁ r) false := by
      rw [admissionRefuses, hp]
    cases hroom : (s₁.pools ρ).canSatisfyDemand cfg.geometry (blocksToAllocate cfg s₁ r) false with
    | false =>
      rw [hroom] at hrefuses
      exact Ends.imp (refused_ends (α := Bool) (blocksToAllocate cfg s₁ r).entries
        hrefuses hm1 hreused hb) (fun _ _ h => h.elim)
    | true =>
      rw [hroom] at hrefuses
      refine Ends.bind ((growRows_step (hm1.backed hb)).raises ?_) ?_
      · rintro e s' ⟨-, hm, hgrew, hsame⟩ -
        refine .growing hrefuses (hm1.trans hm) s₁ hreused hgrew fun h => ?_
        obtain ⟨c, hlt, herr⟩ := hsame h
        obtain ⟨m, hm'⟩ := Nat.exists_eq_add_of_lt hlt
        refine absurd hroom (Bool.eq_false_iff.mp (not_canSatisfyDemand (n := m) (hm1.inv ρ) ?_ herr))
        refine List.mem_map.mpr ⟨c, cfg.mem_leaves c, Prod.ext rfl ?_⟩
        simp only [numBlocksToAllocate]
        rw [rowsOf] at hm'
        omega
      · rintro _ s' ⟨hm, hgrew, hlen⟩
        refine ⟨hm1.trans hm, s₁, hreused, hgrew, ?_⟩
        rw [hgrew.2.1]
        exact hlen

end MojoProse.KvCache.JengaBlockManager
