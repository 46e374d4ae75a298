import MojoProse.Schemes.Settle
import MojoProse.Support.Math
import Mathlib.Data.List.TakeWhile
import Mathlib.Data.List.Sort

/-! Which prefix of a hash chain a tree of leaves can reuse (`cache_params.py`, `prefix_hit.py`).

    A leaf's residency is a mask over the chain. `longest_hit` says how much of it one leaf can use;
    `longest_joint_prefix_hit` settles on a prefix that every leaf accepts. -/

namespace MojoProse.KvCache
open Schemes Support List

/-- `KVCacheGroupId`: the shapes `__post_init__` accepts. -/
inductive KVCacheGroupId where
  | full
  | slidingWindow (windowSize : ℕ) (one_lt : 1 < windowSize)
  | recurrent
  | scratch
  deriving DecidableEq

/-- `blocks_in_window` of a sliding-window group: the whole blocks its history spans. -/
def blocksInWindow (windowSize pageSize : ℕ) : ℕ := (ceildiv ((windowSize : ℤ) - 1) pageSize).toNat

/-- The loop of a full leaf: the run from the root. -/
def rootRun : List Bool → ℕ
  | [] => 0
  | held :: resident => if held then rootRun resident + 1 else 0

/-- The loop of a recurrent leaf: the deepest state that stands. -/
def deepestHeld (resident : List Bool) : ℕ → ℕ
  | 0 => 0
  | idx + 1 => if resident.getD idx false then idx + 1 else deepestHeld resident idx

/-- The loop of a sliding-window leaf: walk back to the first place where a consecutive run fills the window. -/
def windowRun (blocksInWindow : ℕ) (resident : List Bool) : ℕ → ℕ → ℕ
  | 0, run => run
  | idx + 1, run =>
    if resident.getD idx false then
      if run + 1 ≥ blocksInWindow then idx + (run + 1)
      else windowRun blocksInWindow resident idx (run + 1)
    else windowRun blocksInWindow resident idx 0

def KVCacheGroupId.longestHit (pageSize : ℕ) (resident : List Bool) : KVCacheGroupId → ℕ
  | .scratch => resident.length
  | .recurrent => deepestHeld resident resident.length
  | .full => rootRun resident
  | .slidingWindow w _ => windowRun (blocksInWindow w pageSize) resident resident.length 0

/-- What a leaf makes of the first `n` blocks of its mask. -/
def narrowTo (pageSize : ℕ) (leaf : KVCacheGroupId × List Bool) (n : ℕ) : ℕ :=
  leaf.1.longestHit pageSize (leaf.2.take n)

/-- What a prefix of `n` blocks has to hold for a leaf to use it. -/
def KVCacheGroupId.Accepts (pageSize : ℕ) (mask : List Bool) (n : ℕ) : KVCacheGroupId → Prop
  | .full => ∀ j < n, mask.getD j false = true
  | .slidingWindow w _ => ∀ j < n, n - blocksInWindow w pageSize ≤ j → mask.getD j false = true
  | .recurrent => n = 0 ∨ mask.getD (n - 1) false = true
  | .scratch => True

def longestJointPrefixHit (leafHits : List (KVCacheGroupId × List Bool)) (pageSize : ℕ) : Except String ℕ :=
  match leafHits with
  | [] => .ok 0
  | (_, resident) :: _ =>
    if leafHits.all fun leaf => leaf.2.length = resident.length then
      let fs := leafHits.map (narrowTo pageSize)
      .ok (settle (settleFuel fs resident.length) fs resident.length 0)
    else
      let widths := ((leafHits.map fun leaf => leaf.2.length).dedup).mergeSort
      .error s!"every leaf's mask covers the same chain; got widths {widths}"

/-- `blocks_held_of_hit`; `none` for a group that reads its whole history. -/
def blocksHeldOfHit (numHitBlocks : ℕ) : Option ℕ → ℕ
  | none => numHitBlocks
  | some blocksInWindow => min numHitBlocks blocksInWindow

theorem le_blocksInWindow_mul {w pageSize : ℕ} (hp : 0 < pageSize) : w - 1 ≤ blocksInWindow w pageSize * pageSize := by
  have hle := (toNat_ceildiv_le_iff (a := (w : ℤ) - 1) hp).mp le_rfl
  rw [blocksInWindow]
  omega

theorem blocksInWindow_pos {w pageSize : ℕ} (hw : 1 < w) (hp : 0 < pageSize) : 0 < blocksInWindow w pageSize := by
  have := le_blocksInWindow_mul (w := w) hp
  by_contra h
  have h0 : blocksInWindow w pageSize = 0 := by omega
  rw [h0] at this
  omega

variable {pageSize n : ℕ} {resident : List Bool}

theorem rootRun_take : ∀ (resident : List Bool) (n : ℕ), rootRun (resident.take n) = min n (rootRun resident)
  | [], n | held :: resident, 0 => by simp [rootRun]
  | held :: resident, n + 1 => by
    simp only [take_succ_cons, rootRun, rootRun_take resident n]
    split_ifs <;> omega

theorem getD_of_lt_rootRun : ∀ (resident : List Bool) (j : ℕ), j < rootRun resident → resident.getD j false = true
  | [], j, h => absurd h (Nat.not_lt_zero _)
  | held :: resident, j, h => by
    rw [rootRun] at h
    split_ifs at h with hheld
    · cases j with
      | zero => simpa using hheld
      | succ j => exact getD_of_lt_rootRun resident j (by omega)
    · omega

theorem le_rootRun : ∀ {resident : List Bool} {m : ℕ}, (∀ j < m, resident.getD j false = true) → m ≤ rootRun resident
  | _, 0, _ => Nat.zero_le _
  | [], _ + 1, h => by simpa using h 0
  | held :: resident, m + 1, h => by
    have hheld : held = true := by simpa using h 0
    have := @le_rootRun resident m fun j hj => by simpa using h (j + 1) (by omega)
    rw [rootRun, if_pos hheld]
    omega

theorem deepestHeld_le (resident : List Bool) : ∀ idx, deepestHeld resident idx ≤ idx
  | 0 => le_rfl
  | idx + 1 => by
    have := deepestHeld_le resident idx
    rw [deepestHeld]
    split_ifs <;> omega

theorem deepestHeld_fixed (resident : List Bool) :
    ∀ idx, deepestHeld resident (deepestHeld resident idx) = deepestHeld resident idx
  | 0 => rfl
  | idx + 1 => by
    by_cases h : resident.getD idx false = true
    · have hstep : deepestHeld resident (idx + 1) = idx + 1 := by rw [deepestHeld, if_pos h]
      rw [hstep, hstep]
    · have hstep : deepestHeld resident (idx + 1) = deepestHeld resident idx := by
        rw [deepestHeld, if_neg h]
      rw [hstep]
      exact deepestHeld_fixed resident idx

theorem le_deepestHeld {m : ℕ} (h : m = 0 ∨ resident.getD (m - 1) false = true) :
    ∀ idx, m ≤ idx → m ≤ deepestHeld resident idx
  | 0, hm => hm
  | idx + 1, hm => by
    rw [deepestHeld]
    split_ifs with hheld
    · exact hm
    · have hne : m ≠ idx + 1 := by
        rintro rfl
        exact hheld (h.resolve_left (by omega))
      exact le_deepestHeld h idx (by omega)

theorem getD_take {n j : ℕ} (h : j < n) : (resident.take n).getD j false = resident.getD j false := by
  simp [getD_eq_getElem?_getD, h]

theorem deepestHeld_take {n : ℕ} : ∀ idx, idx ≤ n → deepestHeld (resident.take n) idx = deepestHeld resident idx
  | 0, _ => rfl
  | idx + 1, h => by
    rw [deepestHeld, deepestHeld, getD_take (by omega), deepestHeld_take idx (by omega)]

theorem windowRun_take {b : ℕ} {n : ℕ} :
    ∀ idx run, idx ≤ n → windowRun b (resident.take n) idx run = windowRun b resident idx run
  | 0, _, _ => rfl
  | idx + 1, run, h => by
    rw [windowRun, windowRun, getD_take (by omega), windowRun_take idx _ (by omega), windowRun_take idx _ (by omega)]

/-- The walk ends at the end of a run that fills the window or reaches the root. -/
theorem windowRun_spec {b : ℕ} (resident : List Bool) :
    ∀ idx run, (∀ j, idx ≤ j → j < idx + run → resident.getD j false = true) →
      windowRun b resident idx run ≤ idx + run ∧
      ∀ j, windowRun b resident idx run ≤ j + b → j < windowRun b resident idx run → resident.getD j false = true
  | 0, run, hrun => by
    rw [windowRun]
    exact ⟨by omega, fun j _ hj => hrun j (Nat.zero_le _) (by omega)⟩
  | idx + 1, run, hrun => by
    by_cases hheld : resident.getD idx false = true
    · -- the run grows by the block below it
      have hrun' : ∀ j, idx ≤ j → j < idx + (run + 1) → resident.getD j false = true := by
        intro j h1 h2
        rcases Nat.eq_or_lt_of_le h1 with rfl | h1
        · exact hheld
        · exact hrun j h1 (by omega)
      rw [windowRun, if_pos hheld]
      by_cases hfull : run + 1 ≥ b
      · rw [if_pos hfull]
        exact ⟨by omega, fun j h1 h2 => hrun' j (by omega) h2⟩
      · rw [if_neg hfull]
        obtain ⟨h1, h2⟩ := windowRun_spec resident idx (run + 1) hrun'
        exact ⟨by omega, h2⟩
    · rw [windowRun, if_neg hheld]
      obtain ⟨h1, h2⟩ := windowRun_spec (b := b) resident idx 0 (by intros; omega)
      exact ⟨by omega, h2⟩

theorem windowRun_of_window {b e : ℕ} (hwin : ∀ j, e ≤ j + b → j < e → resident.getD j false = true) :
    ∀ idx run, idx + run = e → run < b → windowRun b resident idx run = e
  | 0, run, he, _ => by rw [windowRun]; omega
  | idx + 1, run, he, hrun => by
    rw [windowRun, if_pos (hwin idx (by omega) (by omega))]
    by_cases hfull : run + 1 ≥ b
    · rw [if_pos hfull]
      omega
    · rw [if_neg hfull]
      exact windowRun_of_window hwin idx (run + 1) (by omega) (by omega)

/-- A window that is held is not passed over: either the walk stops above it, or it counts it whole. -/
theorem le_windowRun {b m : ℕ} (hwin : ∀ j < m, m - b ≤ j → resident.getD j false = true) :
    ∀ idx run, m ≤ idx + run → run < b → m ≤ windowRun b resident idx run
  | 0, run, hm, _ => by rwa [windowRun, ← Nat.zero_add run]
  | idx + 1, run, hm, hrun => by
    rw [windowRun]
    split_ifs with hheld hfull
    · omega
    · exact le_windowRun hwin idx (run + 1) (by omega) (by omega)
    · have hout : m ≤ idx := by
        by_contra hin
        exact hheld (hwin idx (by omega) (by omega))
      exact le_windowRun hwin idx 0 hout (by omega)

theorem narrowTo_recurrent : narrowTo pageSize (.recurrent, resident) n =
    deepestHeld resident (min n resident.length) := by
  simp only [narrowTo, KVCacheGroupId.longestHit, length_take]
  exact deepestHeld_take _ (by omega)

theorem narrowTo_slidingWindow {w : ℕ} {hw : 1 < w} : narrowTo pageSize (.slidingWindow w hw, resident) n =
    windowRun (blocksInWindow w pageSize) resident (min n resident.length) 0 := by
  simp only [narrowTo, KVCacheGroupId.longestHit, length_take]
  exact windowRun_take _ _ (by omega)

/-- Every leaf narrows: asked again about a prefix it returned, it returns it. -/
theorem narrowTo_narrows (hp : 0 < pageSize) : ∀ leaf : KVCacheGroupId × List Bool, Narrows (narrowTo pageSize leaf)
  | (.scratch, resident) => by
    refine ⟨fun n => ?_, fun n => ?_⟩ <;>
      simp only [narrowTo, KVCacheGroupId.longestHit, length_take] <;> omega
  | (.full, resident) => by
    refine ⟨fun n => ?_, fun n => ?_⟩ <;>
      simp only [narrowTo, KVCacheGroupId.longestHit, rootRun_take] <;> omega
  | (.recurrent, resident) => by
    refine ⟨fun n => ?_, fun n => ?_⟩
    · rw [narrowTo_recurrent]
      exact (deepestHeld_le _ _).trans (min_le_left _ _)
    · have hle := deepestHeld_le resident (min n resident.length)
      rw [narrowTo_recurrent, narrowTo_recurrent, min_eq_left (by omega), deepestHeld_fixed]
  | (.slidingWindow w hw, resident) => by
    have hspec : ∀ n, _ := fun n => windowRun_spec (b := blocksInWindow w pageSize)
      resident (min n resident.length) 0 (by omega)
    refine ⟨fun n => ?_, fun n => ?_⟩
    · rw [narrowTo_slidingWindow]
      have := (hspec n).1
      omega
    · obtain ⟨hle, hwin⟩ := hspec n
      rw [narrowTo_slidingWindow, narrowTo_slidingWindow, min_eq_left (by omega)]
      exact windowRun_of_window hwin _ 0 rfl (blocksInWindow_pos hw hp)

theorem le_narrowTo (hp : 0 < pageSize) {m : ℕ} : ∀ {leaf : KVCacheGroupId × List Bool},
    leaf.1.Accepts pageSize leaf.2 m → m ≤ leaf.2.length → m ≤ n → m ≤ narrowTo pageSize leaf n
  | (.scratch, resident), _, hlen, hn => by
    simp only [narrowTo, KVCacheGroupId.longestHit, length_take]
    exact le_min hn hlen
  | (.full, resident), h, _, hn => by
    simp only [narrowTo, KVCacheGroupId.longestHit, rootRun_take]
    exact le_min hn (le_rootRun h)
  | (.recurrent, resident), h, hlen, hn => by
    rw [narrowTo_recurrent]
    exact le_deepestHeld h _ (le_min hn hlen)
  | (.slidingWindow w hw, resident), h, hlen, hn => by
    rw [narrowTo_slidingWindow]
    exact le_windowRun h _ 0 (le_min hn hlen) (blocksInWindow_pos hw hp)

theorem held_of_full_accepts (h : narrowTo pageSize (.full, resident) n = n) {j : ℕ} (hj : j < n) :
    resident.getD j false = true := by
  simp only [narrowTo, KVCacheGroupId.longestHit, rootRun_take] at h
  exact getD_of_lt_rootRun resident j (by omega)

theorem held_of_window_accepts {w : ℕ} {hw : 1 < w}
    (h : narrowTo pageSize (.slidingWindow w hw, resident) n = n) {j : ℕ}
    (hlow : n ≤ j + blocksInWindow w pageSize) (hj : j < n) : resident.getD j false = true := by
  have hspec := windowRun_spec (b := blocksInWindow w pageSize) (resident.take n)
    (resident.take n).length 0 (by omega)
  rw [narrowTo, KVCacheGroupId.longestHit] at h
  rw [h] at hspec
  rw [← getD_take hj]
  exact hspec.2 j hlow hj

theorem narrowTo_eq_iff (hp : 0 < pageSize) : ∀ {leaf : KVCacheGroupId × List Bool}, n ≤ leaf.2.length →
    (narrowTo pageSize leaf n = n ↔ leaf.1.Accepts pageSize leaf.2 n) := by
  rintro ⟨group, resident⟩ hn
  refine ⟨fun h => ?_, fun h => Nat.le_antisymm ((narrowTo_narrows hp _).le n) (le_narrowTo hp h hn le_rfl)⟩
  cases group with
  | full => exact fun j hj => held_of_full_accepts h hj
  | slidingWindow w hw => exact fun j hj hlow => held_of_window_accepts h (by omega) hj
  | scratch => trivial
  | recurrent =>
    rw [narrowTo_recurrent, min_eq_left hn] at h
    cases n with
    | zero => exact .inl rfl
    | succ idx =>
      rw [deepestHeld] at h
      split_ifs at h with hheld
      · exact .inr hheld
      · have := deepestHeld_le resident idx
        omega

section Joint

variable {leafHits : List (KVCacheGroupId × List Bool)} {width : ℕ} (hp : 0 < pageSize)
  (hwidth : ∀ leaf ∈ leafHits, leaf.2.length = width)

include hp

theorem narrows_of_mem : ∀ f ∈ leafHits.map (narrowTo pageSize), Narrows f := by
  intro f hf
  obtain ⟨leaf, -, rfl⟩ := mem_map.mp hf
  exact narrowTo_narrows hp leaf

include hwidth

/-- On masks of one width the loop ends, and its bound is the answer. -/
theorem longestJointPrefixHit_settles (hne : leafHits ≠ []) :
    ∃ n, longestJointPrefixHit leafHits pageSize = .ok n ∧ Settles (leafHits.map (narrowTo pageSize)) width 0 n := by
  obtain ⟨leaf, rest, rfl⟩ := exists_cons_of_ne_nil hne
  have hall : ((leaf :: rest).all fun l => l.2.length = leaf.2.length) = true := by
    simp only [all_eq_true, decide_eq_true_eq]
    intro l hl
    rw [hwidth l hl, hwidth leaf (by simp)]
  have hsettles := settle_spec ((leaf :: rest).map (narrowTo pageSize)) (narrows_of_mem hp) leaf.2.length
  refine ⟨_, by rw [longestJointPrefixHit, if_pos hall], ?_⟩
  rw [← hwidth leaf (by simp)]
  exact hsettles

/-- The joint hit of masks of one width exists, and every leaf accepts it. -/
theorem longestJointPrefixHit_spec : ∃ n, longestJointPrefixHit leafHits pageSize = .ok n ∧ n ≤ width ∧
      ∀ leaf ∈ leafHits, narrowTo pageSize leaf n = n := by
  rcases eq_or_ne leafHits [] with rfl | hne
  · exact ⟨0, rfl, Nat.zero_le _, by simp⟩
  obtain ⟨n, hok, hsettles⟩ := longestJointPrefixHit_settles hp hwidth hne
  obtain ⟨hle, hacc⟩ := hsettles.accepted_all (narrows_of_mem hp)
  exact ⟨n, hok, hle, fun leaf hleaf => hacc _ (mem_map_of_mem hleaf)⟩

end Joint

/-- **The joint prefix hit**: for masks of one width the loop ends, and its answer is the greatest prefix that every
    leaf can use, whatever the order of the leaves. -/
theorem longestJointPrefixHit_greatest (leafHits : List (KVCacheGroupId × List Bool)) (hne : leafHits ≠ [])
    (width : ℕ) (hwidth : ∀ leaf ∈ leafHits, leaf.2.length = width) (pageSize : ℕ) (hp : 1 ≤ pageSize) :
    ∃ n, longestJointPrefixHit leafHits pageSize = .ok n ∧ Settles (leafHits.map (narrowTo pageSize)) width 0 n ∧
      IsGreatest {m | m ≤ width ∧ ∀ leaf ∈ leafHits, leaf.1.Accepts pageSize leaf.2 m} n ∧
      ∀ reordered, reordered.Perm leafHits → longestJointPrefixHit reordered pageSize = .ok n := by
  have hgreatest : ∀ {leaves}, leaves.Perm leafHits → ∃ n, longestJointPrefixHit leaves pageSize = .ok n ∧
      Settles (leaves.map (narrowTo pageSize)) width 0 n ∧
      IsGreatest {m | m ≤ width ∧ ∀ leaf ∈ leafHits, leaf.1.Accepts pageSize leaf.2 m} n := by
    intro leaves hperm
    have hwidth' : ∀ leaf ∈ leaves, leaf.2.length = width := fun leaf h => hwidth leaf (hperm.mem_iff.mp h)
    obtain ⟨n, hok, hsettles⟩ := longestJointPrefixHit_settles hp hwidth' fun h => hne (by simpa [h] using hperm)
    obtain ⟨n', hok', hle, hacc⟩ := longestJointPrefixHit_spec hp hwidth'
    obtain rfl : n = n' := Except.ok.inj (hok.symm.trans hok')
    refine ⟨n, hok, hsettles, ⟨hle, fun leaf hleaf => ?_⟩, fun m hm => hsettles.keeps (fun f hf k hk => ?_) hm.1⟩
    · exact (narrowTo_eq_iff hp (hle.trans_eq (hwidth leaf hleaf).symm)).mp (hacc leaf (hperm.mem_iff.mpr hleaf))
    · obtain ⟨leaf, hleaf, rfl⟩ := mem_map.mp hf
      exact le_narrowTo hp (hm.2 leaf (hperm.mem_iff.mp hleaf)) (hm.1.trans_eq (hwidth' leaf hleaf).symm) hk
  obtain ⟨n, hok, hsettles, hn⟩ := hgreatest (Perm.refl _)
  refine ⟨n, hok, hsettles, hn, fun reordered hperm => ?_⟩
  obtain ⟨n', hok', -, hn'⟩ := hgreatest hperm
  rw [hok', hn'.unique hn]

/-- A full leaf that misses its last block, and a recurrent one that only holds the first. -/
theorem longestJointPrefixHit_full_recurrent : ∃ n,
    longestJointPrefixHit [(.full, [true, true, false]), (.recurrent, [true, false, false])] 4 = .ok n ∧ n = 1 := by
  obtain ⟨n, hok, -⟩ := longestJointPrefixHit_greatest
    [(.full, [true, true, false]), (.recurrent, [true, false, false])] (by simp) 3 (by simp) 4 (by decide)
  refine ⟨n, hok, ?_⟩
  exact (Except.ok.inj (hok.symm.trans (by decide : _ = Except.ok 1)))

end MojoProse.KvCache
