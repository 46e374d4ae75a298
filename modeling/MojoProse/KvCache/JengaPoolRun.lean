import MojoProse.KvCache.JengaPoolInv
import MojoProse.Schemes.Guard

/-! Every operation of `JengaBlockPool` keeps the representation invariant, so it holds in every
    state a run of operations reaches. -/

namespace MojoProse.KvCache.JengaBlockPool
open Schemes JengaBlockPool List Function Geometry
variable {C H : Type} [DecidableEq C] [DecidableEq H] {g : Geometry C} {s s' : JengaBlockPool C H}
  {e : Option ℕ} {c : C} {bid huge : ℕ} {h : H}

/-- Where `alloc_block` finds a block: on the free list of `c`, or in the first free huge block, which is not one of
    `c`. -/
inductive Ready (g : Geometry C) (s : JengaBlockPool C H) (c : C) : JengaBlockPool C H → Option ℕ → Prop
  | own (hlittle : s.freeLittleBlocks c ≠ []) (hkeep : s.preferClaimHuge c = false) : Ready g s c s none
  | claim {s₁ : JengaBlockPool C H} {huge : ℕ} {rest : List ℕ}
      (hfree : s.freeHugeBlocks = huge :: rest) (hne : s.littleBlockType huge ≠ some c)
      (hwhy : s.freeLittleBlocks c = [] ∨ s.preferClaimHuge c = true)
      (hc : Claimed g s huge c s₁) : Ready g s c s₁ (some huge)

theorem Ready.invExcept (hi : Inv g s) {s₁ : JengaBlockPool C H} (hr : Ready g s c s₁ e) : InvExcept g s₁ e := by
  cases hr with
  | own => exact hi
  | claim hfree hne _ hc => exact hc.invExcept hi (by simp [hfree]) hne

theorem takeFront_ok (hi : InvExcept g s e) {rest : List ℕ} (hlittle : s.freeLittleBlocks c = bid :: rest) :
    ∃ s', s.takeFront g c = .ok (bid, s') ∧ Acquired g s c bid s' ∧
      ∀ c' b, s'.blockHash c' b = if c' = c ∧ b = bid then none else s.blockHash c' b := by
  have hzero := ((hi.little_mem c bid).mp (by simp [hlittle])).2.2
  have herase : (s.freeLittleBlocks c).erase bid = rest := by rw [hlittle, erase_cons_head]
  simp only [takeFront, hlittle]
  have hhash : ∀ (t : JengaBlockPool C H) c' b, t.blockHash = s.blockHash →
      (t.uncommitBlock c bid).blockHash c' b = if c' = c ∧ b = bid then none else s.blockHash c' b := by
    intro t c' b ht
    rw [blockHash_uncommitBlock, ht]
  refine ⟨_, rfl, ?_, fun c' b => hhash _ c' b (by split_ifs <;> rfl)⟩
  rw [uncommitBlock_eq]
  refine ⟨?_, ?_, ?_, ?_, fun c' b h' hb => ?_, cache_uncommitBlock (by split_ifs <;> exact hi.cache) c bid, ?_⟩
  · split_ifs with hmem
    · rfl
    · exact (erase_of_not_mem hmem).symm
  · rw [herase]
    split_ifs <;> rfl
  · split_ifs <;> rfl
  · split_ifs <;> simp [setRefCnt, setFreeLittle, addParked, hzero]
  · have hb := (hhash _ c' b (by split_ifs <;> rfl)).symm.trans hb
    split_ifs at hb
    exact hb
  · by_cases hmem : g.hugeOf c bid ∈ s.freeHugeBlocks <;> simp only [setFreeLittle, setRefCnt, addParked, hmem, if_true, if_false]
    rfl

/-- `alloc_block` raises only when no bytes are left for `c`; else it hands out the front of the free list, after a
    claim if one is due. -/
theorem allocBlock_cases (hi : Inv g s) (c : C) : (s.allocBlock g c = .error (.insufficientBlocks c) ∧
      s.freeLittleBlocks c = [] ∧ s.freeHugeBlocks = []) ∨
    ∃ s₁ e bid rest s', s.allocBlock g c = .ok (bid, s') ∧ Ready g s c s₁ e ∧
      s₁.freeLittleBlocks c = bid :: rest ∧ (e = none ∨ e = some (g.hugeOf c bid)) ∧ Acquired g s₁ c bid s' ∧
      ∀ c' b, s'.blockHash c' b = if c' = c ∧ b = bid then none else s₁.blockHash c' b := by
  by_cases hclaim : s.freeLittleBlocks c = [] ∨ s.preferClaimHuge c = true
  · simp only [allocBlock, hclaim, if_true]
    cases hfree : s.freeHugeBlocks with
    | nil =>
      rcases hclaim with hnil | hprefer
      · exact .inl ⟨by simp [claimFront, hfree], hnil, rfl⟩
      · simp [preferClaimHuge, hfree] at hprefer
    | cons huge rest =>
      -- an idle huge block of type `c` would have its little blocks on the free list of `c`
      have hne : s.littleBlockType huge ≠ some c := by
        rcases hclaim with hnil | hprefer
        · intro htype
          have hsub := hi.littles_subset (by simp [hfree]) htype
          rw [hnil, subset_nil] at hsub
          exact littles_ne_nil c huge hsub
        · unfold preferClaimHuge at hprefer
          rw [hfree] at hprefer
          split at hprefer
          · rename_i heq
            obtain ⟨rfl, rfl⟩ := cons.inj heq
            simp only [Bool.and_eq_true, Option.isNone_iff_eq_none] at hprefer
            simp [hprefer.2]
          · simp at hprefer
      obtain ⟨s₁, hok, hc⟩ := claimFront_ok hi hfree hne
      have hi1 := hc.invExcept hi (by simp [hfree]) hne
      obtain ⟨b, bs, hbs⟩ := exists_cons_of_ne_nil (littles_ne_nil c huge)
      have hlittle : s₁.freeLittleBlocks c = b :: (bs ++ s.freeLittleBlocks c) := by
        rw [hc.little_self, hbs, cons_append]
      have hb : g.hugeOf c b = huge := mem_littles.mp (by simp [hbs])
      obtain ⟨s', htake, ha, hhash⟩ := takeFront_ok hi1 hlittle
      exact .inr ⟨s₁, some huge, b, _, s', by simp [hok, htake],
        .claim hfree hne hclaim hc, hlittle, .inr (by rw [hb]), ha, hhash⟩
  · simp only [allocBlock, hclaim, if_false]
    simp only [not_or, Bool.not_eq_true] at hclaim
    obtain ⟨b, bs, hbs⟩ := exists_cons_of_ne_nil hclaim.1
    obtain ⟨s', htake, ha, hhash⟩ := takeFront_ok hi hbs
    exact .inr ⟨s, none, b, bs, s', htake, .own hclaim.1 hclaim.2, hbs, .inl rfl, ha, hhash⟩

/-- The block `alloc_block` hands out is real, had no reference, now has one and no hash. -/
theorem allocBlock_spec (hi : Inv g s) (hok : s.allocBlock g c = .ok (bid, s')) :
    Inv g s' ∧ g.IsLittle c bid ∧ s.refCnt c bid = 0 ∧
      s'.refCnt = update s.refCnt c (update (s.refCnt c) bid 1) ∧ s'.blockHash c bid = none ∧
      ∀ c b h, s'.blockHash c b = some h → s.blockHash c b = some h := by
  rcases allocBlock_cases hi c with ⟨herr, -⟩ | ⟨s₁, e, b, rest, t, hok', hr, hlittle, he, ha, hhash⟩
  · rw [herr] at hok
    cases hok
  · rw [hok'] at hok
    cases hok
    have hi1 := hr.invExcept hi
    have hmem : bid ∈ s₁.freeLittleBlocks c := by simp [hlittle]
    have hnone : s'.blockHash c bid = none := by simp [hhash]
    obtain ⟨hreal, -, hzero⟩ := (hi1.little_mem c bid).mp hmem
    refine ⟨hi1.acquire hmem he ha, hreal, ?_⟩
    cases hr with
    | own => exact ⟨hzero, ha.ref, hnone, ha.hash⟩
    | claim hfree hne hwhy hc =>
      rw [hc.ref] at hzero
      refine ⟨hzero, by rw [ha.ref, hc.ref], hnone, fun c' b' h hb => ?_⟩
      have := ha.hash c' b' h hb
      rw [hc.hash] at this
      split_ifs at this
      exact this

omit [DecidableEq H] in
theorem pushFree_perm (s : JengaBlockPool C H) (c : C) (bid : ℕ) : ∃ l,
    s.pushFree c bid = s.setFreeLittle c l ∧ l.Perm (bid :: s.freeLittleBlocks c) := by
  unfold pushFree
  split
  · exact ⟨_, rfl, Perm.refl _⟩
  · exact ⟨_, rfl, perm_append_singleton _ _⟩

section
variable (hi : Inv g s)
include hi

theorem freeBlock_spec (href : s.refCnt c bid ≠ 0) : ∃ s', s.freeBlock g c bid = .ok s' ∧ Inv g s' ∧
      s'.refCnt = update s.refCnt c (update (s.refCnt c) bid (s.refCnt c bid - 1)) ∧
      s'.blockHash = s.blockHash ∧ s'.prefixCaches = s.prefixCaches := by
  obtain ⟨hreal, htyped⟩ := hi.typed_of_ref c bid href
  simp only [freeBlock, hreal.ne_zero, href, if_false]
  by_cases hone : s.refCnt c bid = 1
  · obtain ⟨l, hpush, hl⟩ := pushFree_perm (s.setRefCnt c bid (s.refCnt c bid - 1)) c bid
    rw [if_neg (by simp [setRefCnt, hone]), hpush]
    have hlast : s.refCnt c bid - 1 = 0 := by omega
    have hidle := hugeRefCnt_eq_zero_iff (g.hugeOf c bid)
      (s := (s.setRefCnt c bid (s.refCnt c bid - 1)).setFreeLittle c l) (fun c' b hb => by
        refine (hi.typed_of_ref c' b fun h0 => hb ?_).2
        show update s.refCnt c (update (s.refCnt c) bid _) c' b = 0
        rw [hlast, update_block, h0, ite_self])
    by_cases hz : ((s.setRefCnt c bid (s.refCnt c bid - 1)).setFreeLittle c l).hugeRefCnt g (g.hugeOf c bid) = 0
    · rw [if_neg (by simpa using hz), if_neg (by simpa [setFreeLittle, setRefCnt] using htyped)]
      refine ⟨_, rfl, hi.release hone hl rfl rfl ?_ rfl rfl (.inl ⟨?_, rfl, rfl⟩), rfl, rfl, rfl⟩
      · simp [setRefCnt, setFreeLittle, addParked, hlast]
      · exact hidle.mp hz
    · rw [if_pos hz]
      refine ⟨_, rfl, hi.release hone hl rfl rfl ?_ rfl rfl (.inr ⟨?_, rfl, rfl⟩), rfl, rfl, rfl⟩
      · simp [setRefCnt, setFreeLittle, hlast]
      · exact fun h => hz (hidle.mpr h)
  · have hne : s.refCnt c bid - 1 ≠ 0 := by omega
    rw [if_pos (by simpa [setRefCnt] using hne)]
    exact ⟨_, rfl, hi.setRefCnt href hne, rfl, rfl, rfl⟩

theorem touch_spec (hlive : s.refCnt c bid ≠ 0 ∨ s.blockHash c bid ≠ none) :
    ∃ s', s.touch g c bid = .ok s' ∧ Inv g s' ∧ s'.refCnt = update s.refCnt c
        (update (s.refCnt c) bid (s.refCnt c bid + 1)) ∧
      s'.blockHash = s.blockHash ∧ s'.prefixCaches = s.prefixCaches := by
  obtain ⟨hreal, htyped⟩ := hlive.elim (hi.typed_of_ref c bid) (hi.typed_of_hash c bid)
  simp only [touch, hreal.ne_zero, htyped, ne_eq, not_true_eq_false, if_false]
  by_cases href : s.refCnt c bid = 0
  · have hmem := (hi.little_mem c bid).mpr ⟨hreal, htyped, href⟩
    rw [if_neg (by simpa using href)]
    by_cases hfree : g.hugeOf c bid ∈ s.freeHugeBlocks
    · have hzero : s.hugeRefCnt g (g.hugeOf c bid) = 0 := hi.hugeRefCnt_eq_zero_iff.mpr ((hi.huge_mem _).mp hfree).2.1
      simp only [hfree, if_true, claimHugeBlock, hzero, ne_eq, not_true_eq_false, if_false, htyped,
        unpark, ok_bind]
      refine ⟨_, rfl, hi.acquire hmem (.inl rfl) ⟨rfl, rfl, rfl, ?_, fun _ _ _ h => h, hi.cache, ?_⟩, rfl, rfl, rfl⟩
      · simp [setRefCnt, setFreeLittle, addParked, href]
      · simp only [hfree, if_true]
        rfl
    · simp only [hfree, if_false, ok_bind]
      refine ⟨_, rfl, hi.acquire hmem (.inl rfl) ⟨?_, rfl, rfl, ?_, fun _ _ _ h => h, hi.cache, ?_⟩, rfl, rfl, rfl⟩
      · rw [erase_of_not_mem hfree]
        rfl
      · simp [setRefCnt, setFreeLittle, href]
      · rw [if_neg hfree]
        rfl
  · rw [if_pos href]
    exact ⟨_, rfl, hi.setRefCnt href (by omega), rfl, rfl, rfl⟩

theorem commitIntoPrefixCache_spec (href : s.refCnt c bid ≠ 0)
    (hnone : s.blockHash c bid = none) (hnew : (s.prefixCaches c).get? h = none) :
    ∃ s', s.commitIntoPrefixCache h c bid = .ok s' ∧ Inv g s' ∧ s'.refCnt = s.refCnt ∧
      s'.blockHash = update s.blockHash c (update (s.blockHash c) bid (some h)) := by
  obtain ⟨hreal, htyped⟩ := hi.typed_of_ref c bid href
  have hkey := Dict.get?_eq_none_iff.mp hnew
  simp only [commitIntoPrefixCache, hreal.ne_zero, hnone, ne_eq, not_true_eq_false, if_false, hkey, dite_false]
  refine ⟨_, rfl, ⟨hi.huge_nodup, hi.huge_mem, hi.little_nodup, hi.little_mem, hi.typed_of_ref, ?_, ?_,
    hi.parked⟩, rfl, rfl⟩
  · intro c' b hb
    change update s.blockHash c (update (s.blockHash c) bid (some h)) c' b ≠ none at hb
    rw [update_block] at hb
    split_ifs at hb with hsame
    · rw [hsame.1, hsame.2]
      exact ⟨hreal, htyped⟩
    · exact hi.typed_of_hash c' b hb
  · intro c' h' b
    by_cases hc : c' = c
    · subst hc
      simp only [setHash, setPrefixCache, update_self, Dict.get?_insertNew, hi.cache]
      by_cases hbb : b = bid
      · subst hbb
        simp [hnone, eq_comm]
      · simp [hbb]
    · simp [setHash, setPrefixCache, hc, hi.cache]

theorem getOrCommitIntoPrefixCache_spec (href : s.refCnt c bid ≠ 0) (hnone : s.blockHash c bid = none) :
    ∃ t s', s.getOrCommitIntoPrefixCache g h c bid = .ok (t, s') ∧ Inv g s' ∧
      match t with
      | none => (s.prefixCaches c).get? h = none ∧ s'.refCnt = s.refCnt ∧
          s'.blockHash = update s.blockHash c (update (s.blockHash c) bid (some h))
      | some twin => s.blockHash c twin = some h ∧ twin ≠ bid ∧ s'.blockHash = s.blockHash ∧
          s'.refCnt = update s.refCnt c
            (update (update (s.refCnt c) twin (s.refCnt c twin + 1)) bid
              (s.refCnt c bid - 1)) := by
  obtain ⟨hreal, -⟩ := hi.typed_of_ref c bid href
  simp only [getOrCommitIntoPrefixCache, hreal.ne_zero, if_false]
  cases hget : (s.prefixCaches c).get? h with
  | none =>
    obtain ⟨s', hok, hi', hr, hh⟩ := commitIntoPrefixCache_spec hi href hnone hget
    exact ⟨none, s', by simp [hok], hi', rfl, hr, hh⟩
  | some twin =>
    have htwin := (hi.cache c h twin).mp hget
    have hne : bid ≠ twin := by
      rintro rfl
      rw [hnone] at htwin
      cases htwin
    obtain ⟨s₁, hok1, hi1, hr1, hh1, -⟩ := touch_spec hi (.inr (htwin.trans_ne (Option.some_ne_none _)))
    have hrb : s₁.refCnt c bid = s.refCnt c bid := by simp [hr1, hne]
    obtain ⟨s2, hok2, hi2, hr2, hh2, -⟩ := freeBlock_spec hi1 (hrb.trans_ne href)
    refine ⟨some twin, s2, ?_, hi2, htwin, fun h => hne h.symm, by rw [hh2, hh1], ?_⟩
    · simp [hne, hok1, hh1, hnone, hok2]
    · rw [hr2, hrb, hr1]
      simp

theorem resetPrefixCache_inv : Inv g s.resetPrefixCache := by
  refine ⟨hi.huge_nodup, hi.huge_mem, hi.little_nodup, hi.little_mem, hi.typed_of_ref, ?_, ?_, hi.parked⟩
  · intro c b hb
    simp only [resetPrefixCache] at hb
    split_ifs at hb
    · exact absurd rfl hb
    · exact hi.typed_of_hash c b hb
  · intro c h b
    have hmem : b ∈ (s.unreferenced c).map Prod.snd ↔
        s.refCnt c b = 0 ∧ ∃ h', s.blockHash c b = some h' := by
      simp only [unreferenced, mem_map, mem_filter, Prod.exists, decide_eq_true_eq,
        exists_eq_right, ← Dict.get?_eq_some_iff, hi.cache]
      rw [exists_and_right, and_comm]
    simp only [resetPrefixCache, Dict.get?_filter, hi.cache, decide_eq_true_eq]
    constructor
    · rintro ⟨h1, h2⟩
      rw [if_neg (fun hb => h2 (hmem.mp hb).1), h1]
    · intro h1
      split_ifs at h1 with hz
      exact ⟨h1, fun h0 => hz (hmem.mpr ⟨h0, h, h1⟩)⟩

end

inductive Op (C H : Type) where
  | alloc (c : C)
  | free (c : C) (bid : ℕ)
  | touch (c : C) (bid : ℕ)
  | commit (h : H) (c : C) (bid : ℕ)
  | getOrCommit (h : H) (c : C) (bid : ℕ)
  | reset

def call (g : Geometry C) (s : JengaBlockPool C H) : Op C H → Except (PoolError C) (JengaBlockPool C H)
  | .alloc c => Prod.snd <$> s.allocBlock g c
  | .free c bid => s.freeBlock g c bid
  | .touch c bid => s.touch g c bid
  | .commit h c bid => s.commitIntoPrefixCache h c bid
  | .getOrCommit h c bid => Prod.snd <$> s.getOrCommitIntoPrefixCache g h c bid
  | .reset => .ok s.resetPrefixCache

/-- The caller frees what it references, touches what is committed or referenced (or the null block), and commits what
    it references without a hash. -/
def Proper (s : JengaBlockPool C H) : Op C H → Prop
  | .alloc _ => True
  | .free c bid => bid = 0 ∨ 0 < s.refCnt c bid
  | .touch c bid => bid = 0 ∨ s.blockHash c bid ≠ none ∨ 0 < s.refCnt c bid
  | .commit _ c bid => 0 < s.refCnt c bid ∧ s.blockHash c bid = none
  | .getOrCommit _ c bid => 0 < s.refCnt c bid ∧ s.blockHash c bid = none
  | .reset => True

instance (s : JengaBlockPool C H) : ∀ op, Decidable (s.Proper op)
  | .alloc _ => inferInstanceAs (Decidable True)
  | .free c bid => inferInstanceAs (Decidable (bid = 0 ∨ 0 < s.refCnt c bid))
  | .touch c bid =>
    inferInstanceAs (Decidable (bid = 0 ∨ s.blockHash c bid ≠ none ∨ 0 < s.refCnt c bid))
  | .commit _ c bid => inferInstanceAs (Decidable (0 < s.refCnt c bid ∧ s.blockHash c bid = none))
  | .getOrCommit _ c bid =>
    inferInstanceAs (Decidable (0 < s.refCnt c bid ∧ s.blockHash c bid = none))
  | .reset => inferInstanceAs (Decidable True)

def step (g : Geometry C) (s : JengaBlockPool C H) (op : Op C H) : JengaBlockPool C H :=
  match s.call g op with
  | .ok s' => s'
  | .error _ => s

/-- A proper call keeps the invariant. It raises before it has changed anything: no bytes are left, or a hash is taken.
    -/
theorem call_cases (hi : Inv g s) (op : Op C H) (hp : s.Proper op) : (∃ s', s.call g op = .ok s' ∧ Inv g s') ∨
    (∃ c, op = .alloc c ∧ s.call g op = .error (.insufficientBlocks c)) ∨
    (∃ h c bid, op = .commit h c bid ∧ (s.prefixCaches c).get? h ≠ none ∧ s.call g op = .error (.assertion "")) := by
  cases op with
  | alloc c =>
    cases hok : s.allocBlock g c with
    | error err =>
      rcases allocBlock_cases hi c with ⟨herr, -⟩ | ⟨_, _, _, _, _, hok', -⟩
      · rw [hok] at herr
        exact .inr (.inl ⟨c, rfl, by simp [call, hok, Except.error.inj herr]⟩)
      · rw [hok] at hok'
        cases hok'
    | ok r => exact .inl ⟨r.2, by simp [call, hok], (allocBlock_spec hi hok).1⟩
  | free c bid =>
    rcases hp with rfl | hp
    · exact .inl ⟨s, by simp [call, freeBlock], hi⟩
    · obtain ⟨s', hok, hi', -⟩ := freeBlock_spec hi (Nat.pos_iff_ne_zero.mp hp)
      exact .inl ⟨s', hok, hi'⟩
  | touch c bid =>
    rcases hp with rfl | hp
    · exact .inl ⟨s, by simp [call, touch], hi⟩
    · obtain ⟨s', hok, hi', -⟩ := touch_spec hi (hp.symm.imp_left Nat.pos_iff_ne_zero.mp)
      exact .inl ⟨s', hok, hi'⟩
  | commit h c bid =>
    obtain ⟨href, hnone⟩ := hp
    have href := Nat.pos_iff_ne_zero.mp href
    by_cases hnew : (s.prefixCaches c).get? h = none
    · obtain ⟨s', hok, hi', -⟩ := commitIntoPrefixCache_spec hi href hnone hnew
      exact .inl ⟨s', hok, hi'⟩
    · refine .inr (.inr ⟨h, c, bid, rfl, hnew, ?_⟩)
      have hkey : h ∈ (s.prefixCaches c).entries.map Prod.fst :=
        not_not.mp fun hk => hnew (Dict.get?_eq_none_iff.mpr hk)
      simp [call, commitIntoPrefixCache, (hi.typed_of_ref c bid href).1.ne_zero, hnone, hkey]
  | getOrCommit h c bid =>
    obtain ⟨t, s', hok, hi', -⟩ := getOrCommitIntoPrefixCache_spec (h := h) hi (Nat.pos_iff_ne_zero.mp hp.1) hp.2
    exact .inl ⟨s', by simp [call, hok], hi'⟩
  | reset => exact .inl ⟨_, rfl, resetPrefixCache_inv hi⟩

theorem inv_step (hi : Inv g s) (op : Op C H) (hp : s.Proper op) : Inv g (s.step g op) := by
  rcases call_cases hi op hp with ⟨s', hok, hi'⟩ | ⟨c, -, herr⟩ | ⟨h, c, bid, -, -, herr⟩
  · simpa [step, hok] using hi'
  · simpa [step, herr] using hi
  · simpa [step, herr] using hi

def Reached (g : Geometry C) (s : JengaBlockPool C H) : Prop :=
  Reachable (new g) Proper (step g) s

theorem Reached.inv (hs : Reached g s) : Inv g s := Reachable.invariant inv_new (fun _ op hi hp => inv_step hi op hp) hs

/-- In every state a run reaches: (1) the free huge blocks are, once each, the real ones whose references sum to 0; (2)
    a little block of the type of its huge block is referenced or free, not both, and one of another type is neither and
    has no hash; (3) a prefix cache maps a hash to a block exactly when that is the block's hash, and the block is then
    of its huge block's type; (4) the parked counts are those of the free huge blocks of each type. -/
theorem representation_invariant (g : Geometry C) (s : JengaBlockPool C H) (hs : Reached g s) :
    (s.freeHugeBlocks.Nodup ∧ (∀ huge ∈ s.freeHugeBlocks, g.IsHuge huge) ∧
      ∀ huge, g.IsHuge huge → (huge ∈ s.freeHugeBlocks ↔ s.hugeRefCnt g huge = 0)) ∧
    (∀ huge, g.IsHuge huge → ∀ c, ∀ bid ∈ g.littles c huge, if s.littleBlockType huge = some c then
        Xor (0 < s.refCnt c bid) (bid ∈ s.freeLittleBlocks c) else
        s.refCnt c bid = 0 ∧ s.blockHash c bid = none ∧ bid ∉ s.freeLittleBlocks c) ∧
    (∀ c h bid, ((s.prefixCaches c).get? h = some bid ↔ s.blockHash c bid = some h) ∧
      ((s.prefixCaches c).get? h = some bid → s.littleBlockType (g.hugeOf c bid) = some c)) ∧ ∀ c, s.parkedAndTyped c =
      (s.freeHugeBlocks.countP fun huge => s.littleBlockType huge = some c : ℕ) := by
  have hi := hs.inv
  refine ⟨⟨hi.huge_nodup, fun huge h => ((hi.huge_mem huge).mp h).1, ?_⟩, ?_, ?_, hi.parked⟩
  · intro huge hreal
    rw [hi.huge_mem, hi.hugeRefCnt_eq_zero_iff]
    simp [hreal]
  · intro huge hreal c bid hb
    have hb := mem_littles.mp hb
    have hmem := hi.little_mem c bid
    rw [Geometry.IsLittle, hb] at hmem
    split_ifs with htype
    · rw [hmem]
      simp only [hreal, htype, true_and]
      by_cases hz : s.refCnt c bid = 0
      · exact .inr ⟨hz, by omega⟩
      · exact .inl ⟨by omega, hz⟩
    · refine ⟨?_, ?_, ?_⟩
      · by_contra h
        exact htype (hb ▸ (hi.typed_of_ref c bid h).2)
      · by_contra h
        exact htype (hb ▸ (hi.typed_of_hash c bid h).2)
      · rw [hmem]
        exact fun h => htype h.2.1
  · intro c h bid
    refine ⟨hi.cache c h bid, fun hget => (hi.typed_of_hash c bid ?_).2⟩
    simp [(hi.cache c h bid).mp hget]

/-- Four huge blocks, of four little blocks of the cache `true` or two of the cache `false`. -/
def fourByTwo : Geometry Bool where
  numHugeBlocks := 4
  cacheRatios c := if c then 4 else 2
  two_le := by decide
  ratio_pos := by decide

/-- A committed block is freed, so its huge block parks; the other cache takes another one. -/
def parkOne : JengaBlockPool Bool ℕ :=
  [.alloc true, .commit 7 true 4, .free true 4, .alloc false].foldl (step fourByTwo) (new fourByTwo)

theorem representation_invariant_parkOne : Reached fourByTwo parkOne ∧ parkOne.freeHugeBlocks = [3, 1] ∧
      (1 ∈ parkOne.freeHugeBlocks ↔ parkOne.hugeRefCnt fourByTwo 1 = 0) ∧
      parkOne.littleBlockType (fourByTwo.hugeOf true 4) = some true ∧ parkOne.parkedAndTyped true = 1 := by
  have hs : Reached fourByTwo parkOne := Reachable.run _ .start (by decide)
  obtain ⟨⟨-, -, h1⟩, -, h3, h4⟩ := representation_invariant fourByTwo parkOne hs
  exact ⟨hs, by decide, h1 1 ⟨by decide, by decide⟩, (h3 true 7 4).2 (by decide), (h4 true).trans (by decide)⟩

end MojoProse.KvCache.JengaBlockPool
