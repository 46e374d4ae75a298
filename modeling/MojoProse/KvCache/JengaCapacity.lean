import MojoProse.KvCache.JengaAdmission
import Mathlib.Data.Finset.Card
import Mathlib.Algebra.Order.BigOperators.Group.Finset
import Mathlib.Algebra.BigOperators.Ring.Finset
import Mathlib.Order.Interval.Finset.Nat

/-! How much of the pool a cache takes up when it is given a budget of blocks.

    A block is in use while it is referenced or committed. A cache claims another huge block only when none of its
    blocks is neither, so the huge blocks typed to it never hold more than its budget, up to the last huge block. When
    the budgets fit in the pool together, admission and allocation succeed within them. -/

namespace MojoProse.KvCache.JengaBlockPool
open Schemes Support Geometry List Function
variable {C H : Type} [DecidableEq C]

section
variable (g : Geometry C) (s : JengaBlockPool C H)

def hugeBlocks : Finset ℕ := Finset.Ico 1 g.numHugeBlocks

def typedTo (c : C) : Finset ℕ := (hugeBlocks g).filter fun huge => s.littleBlockType huge = some c

def claimedBy (c : C) : Finset ℕ := (s.typedTo g c).filter fun huge => huge ∉ s.freeHugeBlocks

/-- The little blocks of the huge blocks typed to the cache. -/
def carved (c : C) : Finset ℕ := (s.typedTo g c).biUnion fun huge => (g.littles c huge).toFinset

def referenced (c : C) : Finset ℕ := (s.carved g c).filter fun bid => s.refCnt c bid ≠ 0

/-- Referenced or committed. -/
def inUse (c : C) : Finset ℕ :=
  (s.carved g c).filter fun bid => s.refCnt c bid ≠ 0 ∨ (s.blockHash c bid).isSome

/-- The huge blocks that `n` blocks of a cache fill, the last one in part. -/
def hugeFor (c : C) (n : ℕ) : ℕ := (n + g.cacheRatios c - 1) / g.cacheRatios c

end

variable {g : Geometry C} {s s' : JengaBlockPool C H} {c : C} {bid huge : ℕ}

theorem mem_carved : bid ∈ s.carved g c ↔ g.IsLittle c bid ∧ s.littleBlockType (g.hugeOf c bid) = some c := by
  simp only [carved, Finset.mem_biUnion, typedTo, Finset.mem_filter, hugeBlocks, Finset.mem_Ico,
    mem_toFinset, mem_littles, IsLittle, IsHuge]
  constructor
  · rintro ⟨huge, ⟨⟨h1, h2⟩, htype⟩, rfl⟩
    exact ⟨⟨h1, h2⟩, htype⟩
  · rintro ⟨⟨h1, h2⟩, htype⟩
    exact ⟨_, ⟨⟨h1, h2⟩, htype⟩, rfl⟩

theorem card_carved (s : JengaBlockPool C H) (c : C) :
    (s.carved g c).card = (s.typedTo g c).card * g.cacheRatios c := by
  rw [carved, Finset.card_biUnion, Finset.sum_const_nat]
  · intro huge _
    rw [toFinset_card_of_nodup (nodup_littles c huge), littles, length_range']
  · intro a _ b _ hab
    refine Finset.disjoint_left.mpr ?_
    intro x hxa hxb
    rw [mem_toFinset, mem_littles] at hxa hxb
    exact hab (hxa.symm.trans hxb)

omit [DecidableEq C] in
theorem hugeFor_le_iff {n k : ℕ} : hugeFor g c n ≤ k ↔ n ≤ k * g.cacheRatios c := by
  have hpos := g.ratio_pos c
  rw [hugeFor, Nat.div_le_iff_le_mul_add_pred hpos]
  rw [mul_comm]
  omega

theorem referenced_subset : s.referenced g c ⊆ s.inUse g c := Finset.monotone_filter_right _ fun _ _ h => .inl h

theorem sorted_of_sublist {l l' : List ℕ} {f f' : ℕ → Option H}
    (h : l.Pairwise fun a b => f a ≠ none → f b ≠ none) (hsub : l'.Sublist l)
    (hf : ∀ b ∈ l', f' b = f b) : l'.Pairwise fun a b => f' a ≠ none → f' b ≠ none :=
  (h.sublist hsub).imp_of_mem fun {a b} ha hb hab => by
    rw [hf a ha, hf b hb]
    exact hab

theorem sublist_update_erase (s : JengaBlockPool C H) (c : C) (bid : ℕ) : ∀ c',
    (update s.freeLittleBlocks c ((s.freeLittleBlocks c).erase bid) c').Sublist (s.freeLittleBlocks c') :=
  (forall_update_iff _ fun c' l => Sublist l (s.freeLittleBlocks c')).mpr ⟨erase_sublist, fun _ _ => .refl _⟩

theorem freeBlock_lists (hok : s.freeBlock g c bid = .ok s') :
    s'.littleBlockType = s.littleBlockType ∧ (s'.freeLittleBlocks = s.freeLittleBlocks ∨
      s'.freeLittleBlocks = (s.pushFree c bid).freeLittleBlocks) := by
  have hpush : ∀ n, ((s.setRefCnt c bid n).pushFree c bid).littleBlockType = s.littleBlockType ∧
      ((s.setRefCnt c bid n).pushFree c bid).freeLittleBlocks = (s.pushFree c bid).freeLittleBlocks := by
    intro n
    simp only [pushFree, setRefCnt]
    cases s.blockHash c bid <;> exact ⟨rfl, rfl⟩
  simp only [freeBlock] at hok
  split_ifs at hok with h0 href hlast hhuge htype
  · cases hok
    exact ⟨rfl, .inl rfl⟩
  · cases hok
    exact ⟨rfl, .inl rfl⟩
  · cases hok
    exact ⟨(hpush _).1, .inr (hpush _).2⟩
  · cases hok
    exact ⟨(hpush _).1, .inr (hpush _).2⟩

variable [DecidableEq H]

theorem card_referenced (hi : Inv g s) (c : C) :
    (s.freeLittleBlocks c).length + (s.referenced g c).card = (s.typedTo g c).card * g.cacheRatios c := by
  have hfree : (s.freeLittleBlocks c).toFinset = (s.carved g c).filter fun bid => ¬ s.refCnt c bid ≠ 0 := by
    ext bid
    rw [mem_toFinset, hi.little_mem, Finset.mem_filter, mem_carved, not_not, and_assoc]
  rw [← toFinset_card_of_nodup (hi.little_nodup c), hfree, referenced, add_comm,
    Finset.card_filter_add_card_filter_not, card_carved]

/-- With no free block but committed ones, all that is carved is in use. -/
theorem typedTo_le_of_committed (hi : Inv g s) (h : ∀ bid ∈ s.freeLittleBlocks c, s.blockHash c bid ≠ none) :
    (s.typedTo g c).card * g.cacheRatios c ≤ (s.inUse g c).card := by
  rw [← card_carved]
  refine Finset.card_le_card fun bid hbid => ?_
  rw [inUse, Finset.mem_filter]
  refine ⟨hbid, ?_⟩
  by_cases href : s.refCnt c bid = 0
  · obtain ⟨hreal, htype⟩ := mem_carved.mp hbid
    exact .inr (Option.isSome_iff_ne_none.mpr (h bid ((hi.little_mem c bid).mpr ⟨hreal, htype, href⟩)))
  · exact .inl href

theorem hugeBlocks_le (hi : Inv g s) {leaves : List C} (hnd : leaves.Nodup) (hleaves : ∀ c, c ∈ leaves) :
    g.numHugeBlocks - 1 ≤ s.freeHugeBlocks.length + (leaves.map fun c => (s.claimedBy g c).card).sum := by
  have hcover : hugeBlocks g ⊆ s.freeHugeBlocks.toFinset ∪
      leaves.toFinset.biUnion fun c => s.claimedBy g c := by
    intro huge hhuge
    rw [Finset.mem_union, mem_toFinset, Finset.mem_biUnion]
    by_cases hfree : huge ∈ s.freeHugeBlocks
    · exact .inl hfree
    right
    have hbusy : ¬ Idle g s huge := fun hidle =>
      hfree ((hi.huge_mem huge).mpr ⟨Finset.mem_Ico.mp hhuge, hidle, by simp⟩)
    simp only [Idle, not_forall] at hbusy
    obtain ⟨c, bid, rfl, href⟩ := hbusy
    refine ⟨c, mem_toFinset.mpr (hleaves c), ?_⟩
    rw [claimedBy, typedTo, Finset.mem_filter, Finset.mem_filter]
    exact ⟨⟨hhuge, (hi.typed_of_ref c bid href).2⟩, hfree⟩
  have hcard := Finset.card_le_card hcover
  rw [hugeBlocks, Nat.card_Ico] at hcard
  refine hcard.trans ((Finset.card_union_le _ _).trans (add_le_add ?_ ?_))
  · exact toFinset_card_le _
  · rw [← sum_toFinset _ hnd]
    exact Finset.card_biUnion_le

theorem claimedBy_add_parked (hi : Inv g s) (c : C) :
    ((s.typedTo g c).card : ℤ) = (s.claimedBy g c).card + s.parkedAndTyped c := by
  have hparked : (s.freeHugeBlocks.filter fun huge => s.littleBlockType huge = some c).toFinset =
      (s.typedTo g c).filter fun huge => ¬ huge ∉ s.freeHugeBlocks := by
    ext huge
    simp only [mem_toFinset, mem_filter, decide_eq_true_eq, typedTo, Finset.mem_filter, not_not]
    constructor
    · rintro ⟨hfree, htype⟩
      exact ⟨⟨Finset.mem_Ico.mpr ((hi.huge_mem huge).mp hfree).1, htype⟩, hfree⟩
    · rintro ⟨⟨-, htype⟩, hfree⟩
      exact ⟨hfree, htype⟩
  rw [hi.parked, countP_eq_length_filter, ← toFinset_card_of_nodup (hi.huge_nodup.filter _), hparked]
  exact_mod_cast (Finset.card_filter_add_card_filter_not _).symm

def Fits (g : Geometry C) (leaves : List C) (budget : C → ℕ) : Prop :=
  (leaves.map fun c => hugeFor g c (budget c)).sum ≤ g.numHugeBlocks - 1

/-- The pool within its budgets. A free list has its committed blocks last. -/
structure Within (g : Geometry C) (budget : C → ℕ) (s : JengaBlockPool C H) : Prop where
  inv : Inv g s
  sorted : ∀ c, (s.freeLittleBlocks c).Pairwise fun a b => s.blockHash c a ≠ none → s.blockHash c b ≠ none
  typed_le : ∀ c, (s.typedTo g c).card ≤ hugeFor g c (budget c)

variable {leaves : List C} {budget : C → ℕ}

/-- What is still to be drawn of the budgets is admitted. -/
theorem Within.canSatisfyDemand (h : Within g budget s) (hfits : Fits g leaves budget)
    (hnd : leaves.Nodup) (hleaves : ∀ c, c ∈ leaves) {demand : Dict C ℕ} (hkeys : demand.entries.map Prod.fst = leaves)
    (hdemand : ∀ e ∈ demand.entries, (s.inUse g e.1).card + e.2 ≤ budget e.1) :
    s.canSatisfyDemand g demand false = true := by
  have hneed : ∀ e ∈ demand.entries, s.hugeNeed g e.1 e.2 + ((s.claimedBy g e.1).card : ℤ) ≤
      (hugeFor g e.1 (budget e.1) : ℤ) := by
    intro e he
    have hdemand := hdemand e he
    have hused := Finset.card_le_card (referenced_subset (s := s) (g := g) (c := e.1))
    have hfill : (budget e.1 : ℤ) ≤ hugeFor g e.1 (budget e.1) * g.cacheRatios e.1 := by
      exact_mod_cast hugeFor_le_iff.mp (le_refl (hugeFor g e.1 (budget e.1)))
    have htyped := claimedBy_add_parked h.inv e.1
    have hcnt : ((s.freeLittleBlocks e.1).length : ℤ) + (s.referenced g e.1).card =
        (s.typedTo g e.1).card * g.cacheRatios e.1 := by exact_mod_cast card_referenced h.inv e.1
    have hle := h.typed_le e.1
    have hparked : 0 ≤ s.parkedAndTyped e.1 := by
      rw [h.inv.parked]
      omega
    rw [← le_sub_iff_add_le, hugeNeed_le_iff (by omega), fixedFreeBlocks]
    rw [htyped] at hcnt
    linarith
  have hcast : ∀ f : C → ℕ, (demand.entries.map fun e => (f e.1 : ℤ)).sum = ((leaves.map f).sum : ℕ) := by
    intro f
    rw [← hkeys, map_map, Nat.cast_list_sum, map_map]
    rfl
  have hsum := sum_le_sum hneed
  rw [sum_map_add, hcast fun c => (s.claimedBy g c).card, hcast fun c => hugeFor g c (budget c)] at hsum
  have hfree := hugeBlocks_le h.inv hnd hleaves
  rw [canSatisfyDemand_iff h.inv]
  rw [Fits] at hfits
  omega

theorem mem_inUse (hi : Inv g s) : bid ∈ s.inUse g c ↔ s.refCnt c bid ≠ 0 ∨ s.blockHash c bid ≠ none := by
  rw [inUse, Finset.mem_filter, mem_carved, Option.isSome_iff_ne_none]
  exact ⟨fun h => h.2, fun h => ⟨h.elim (hi.typed_of_ref c bid) (hi.typed_of_hash c bid), h⟩⟩

theorem Claimed.sorted (hi : Inv g s) (hne : s.littleBlockType huge ≠ some c) (hc : Claimed g s huge c s')
    (h : ∀ c, (s.freeLittleBlocks c).Pairwise fun a b => s.blockHash c a ≠ none → s.blockHash c b ≠ none) (c' : C) :
    (s'.freeLittleBlocks c').Pairwise fun a b => s'.blockHash c' a ≠ none → s'.blockHash c' b ≠ none := by
  have hother : ∀ b ∈ s.freeLittleBlocks c', g.hugeOf c' b ≠ huge ∨ s.littleBlockType huge = some c' := by
    intro b hb
    by_contra hcon
    push Not at hcon
    exact hcon.2 (hcon.1 ▸ ((hi.little_mem c' b).mp hb).2.1)
  have hkeep : ∀ b, g.hugeOf c' b ≠ huge → s'.blockHash c' b = s.blockHash c' b := fun b hb => by
    rw [hc.hash, if_neg hb]
  rcases eq_or_ne c' c with rfl | hcc
  · -- the new blocks stand in front, without a hash
    have hnew : ∀ b ∈ g.littles c' huge, s'.blockHash c' b = none := fun b hb => by
      rw [hc.hash, if_pos (mem_littles.mp hb)]
    rw [hc.little_self, pairwise_append]
    refine ⟨Pairwise.imp_of_mem (fun ha _ _ hcon => absurd (hnew _ ha) hcon)
      (pairwise_of_forall fun _ _ => trivial), ?_, fun a ha b _ hcon => absurd (hnew a ha) hcon⟩
    exact sorted_of_sublist (h c') (.refl _) fun b hb => hkeep b ((hother b hb).resolve_right hne)
  · rw [hc.little_other c' hcc]
    split_ifs with htype
    · refine sorted_of_sublist (h c') (diff_sublist _ _) fun b hb => hkeep b fun hhuge => ?_
      exact ((hi.little_nodup c').mem_sdiff_iff.mp hb).2 (mem_littles.mpr hhuge)
    · exact sorted_of_sublist (h c') (.refl _) fun b hb => hkeep b ((hother b hb).resolve_right htype)

/-- When a huge block is due, all that the cache has is in use. -/
theorem Within.typed_lt (h : Within g budget s) (hwhy : s.freeLittleBlocks c = [] ∨ s.preferClaimHuge c = true)
    (hlt : (s.inUse g c).card < budget c) : (s.typedTo g c).card < hugeFor g c (budget c) := by
  have hcomm : ∀ bid ∈ s.freeLittleBlocks c, s.blockHash c bid ≠ none := by
    intro bid hbid
    have hsort := h.sorted c
    rcases hwhy with hnil | hprefer
    · rw [hnil] at hbid
      cases hbid
    rw [preferClaimHuge] at hprefer
    cases hl : s.freeLittleBlocks c with
    | nil =>
      rw [hl] at hbid
      cases hbid
    | cons front rest =>
      rw [hl] at hprefer hbid hsort
      have hfront : s.blockHash c front ≠ none := by
        cases hf : s.freeHugeBlocks with
        | nil =>
          rw [hf] at hprefer
          cases hprefer
        | cons huge free =>
          rw [hf] at hprefer
          simp only [Bool.and_eq_true, Option.isSome_iff_ne_none] at hprefer
          exact hprefer.1
      rcases mem_cons.mp hbid with rfl | hbid
      · exact hfront
      · exact (pairwise_cons.mp hsort).1 bid hbid hfront
  by_contra hle
  have := hugeFor_le_iff.mp (not_lt.mp hle)
  have := typedTo_le_of_committed h.inv hcomm
  omega

theorem Within.allocBlock (h : Within g budget s) (hfits : Fits g leaves budget)
    (hnd : leaves.Nodup) (hleaves : ∀ c, c ∈ leaves) (hlt : (s.inUse g c).card < budget c) :
    ∃ bid s', s.allocBlock g c = .ok (bid, s') ∧ Within g budget s' ∧ (s'.inUse g c).card ≤ (s.inUse g c).card + 1 ∧
      ∀ c', c' ≠ c → (s'.inUse g c').card ≤ (s.inUse g c').card := by
  rcases allocBlock_cases h.inv c with ⟨-, hnil, hfree⟩ | ⟨s1, e, bid, rest, s', hok, hr, hlittle, he, ha, hhash⟩
  · -- then every huge block is claimed, and the budgets are not used up
    have hsum : (leaves.map fun c => (s.claimedBy g c).card).sum <
        (leaves.map fun c => hugeFor g c (budget c)).sum := by
      refine sum_lt_sum _ _ (fun c _ => ?_) ⟨c, hleaves c, ?_⟩
      · exact (Finset.card_filter_le _ _).trans (h.typed_le c)
      · exact (Finset.card_filter_le _ _).trans_lt (h.typed_lt (.inl hnil) hlt)
    have hbusy := hugeBlocks_le h.inv hnd hleaves
    rw [hfree, length_nil] at hbusy
    rw [Fits] at hfits
    omega
  obtain ⟨hi', -, -, href, -, hhash'⟩ := allocBlock_spec h.inv hok
  have hsort1 : ∀ c, (s1.freeLittleBlocks c).Pairwise fun a b =>
      s1.blockHash c a ≠ none → s1.blockHash c b ≠ none := by
    cases hr with
    | own => exact h.sorted
    | claim _ hne _ hc => exact hc.sorted h.inv hne h.sorted
  have htyped1 : ∀ c, (s1.typedTo g c).card ≤ hugeFor g c (budget c) := by
    cases hr with
    | own => exact h.typed_le
    | @claim _ huge _ _ hne hwhy hc =>
      have hnew : ∀ c' x, x ∈ s1.typedTo g c' → x = huge ∧ c' = c ∨ x ∈ s.typedTo g c' := by
        intro c' x hx
        simp only [typedTo, Finset.mem_filter, hc.type] at hx ⊢
        rcases eq_or_ne x huge with rfl | hxh
        · exact .inl ⟨rfl, by simpa using hx.2.symm⟩
        · exact .inr ⟨hx.1, by simpa [hxh] using hx.2⟩
      intro c'
      rcases eq_or_ne c' c with rfl | hcc
      · have hsub : s1.typedTo g c' ⊆ insert huge (s.typedTo g c') := fun x hx =>
          Finset.mem_insert.mpr ((hnew c' x hx).imp_left And.left)
        exact (Finset.card_le_card hsub).trans ((Finset.card_insert_le _ _).trans (h.typed_lt hwhy hlt))
      · exact (Finset.card_le_card fun x hx => (hnew c' x hx).resolve_left fun h => hcc h.2).trans (h.typed_le c')
  have hused : ∀ c' b, b ∈ s'.inUse g c' → c' = c ∧ b = bid ∨ b ∈ s.inUse g c' := by
    intro c' b hb
    by_cases hnew : c' = c ∧ b = bid
    · exact .inl hnew
    · rw [mem_inUse h.inv]
      refine .inr (((mem_inUse hi').mp hb).imp ?_ fun hne => ?_)
      · rw [href, update_block, if_neg hnew]
        exact id
      · obtain ⟨x, hx⟩ := Option.ne_none_iff_exists'.mp hne
        exact (hhash' _ _ _ hx).trans_ne (Option.some_ne_none x)
  refine ⟨bid, s', hok, ⟨hi', fun c' => ?_, fun c' => ?_⟩, ?_, fun c' hcc => ?_⟩
  · refine sorted_of_sublist (hsort1 c') (ha.little ▸ sublist_update_erase s1 c bid c') fun b hb => ?_
    rw [hhash, if_neg]
    rintro ⟨rfl, rfl⟩
    have := ((hi'.little_mem _ _).mp hb).2.2
    simp [href] at this
  · rw [typedTo, ha.type]
    exact htyped1 c'
  · have hsub : s'.inUse g c ⊆ insert bid (s.inUse g c) := fun b hb =>
      Finset.mem_insert.mpr ((hused c b hb).imp_left And.right)
    exact (Finset.card_le_card hsub).trans (Finset.card_insert_le _ _)
  · exact Finset.card_le_card fun b hb => (hused c' b hb).resolve_left fun h => hcc h.1

theorem touch_lists (hok : s.touch g c bid = .ok s') : s'.littleBlockType = s.littleBlockType ∧
      ∀ c', (s'.freeLittleBlocks c').Sublist (s.freeLittleBlocks c') := by
  simp only [touch] at hok
  split_ifs at hok with h0 htype href hfree
  · cases hok
    exact ⟨rfl, fun _ => .refl _⟩
  · cases hok
    exact ⟨rfl, fun _ => .refl _⟩
  · -- the parked huge block is one of `c`: its little blocks are on the free list already
    obtain ⟨s1, hclaim, hok⟩ := bind_eq_ok.mp hok
    cases hok
    simp only [not_not] at htype
    simp only [claimHugeBlock, htype, if_true] at hclaim
    split_ifs at hclaim
    cases hclaim
    simp only [unpark, hfree, htype, if_true]
    exact ⟨rfl, sublist_update_erase s c bid⟩
  · cases hok
    exact ⟨rfl, sublist_update_erase s c bid⟩

variable (h : Within g budget s)
include h

theorem Within.of_lists (hi' : Inv g s') (htype : s'.littleBlockType = s.littleBlockType)
    (hsort : ∀ c, (s'.freeLittleBlocks c).Pairwise fun a b =>
      s'.blockHash c a ≠ none → s'.blockHash c b ≠ none) : Within g budget s' :=
  ⟨hi', hsort, fun c => by
    rw [typedTo, htype]
    exact h.typed_le c⟩

theorem Within.freeBlock (href : s.refCnt c bid ≠ 0) (hok : s.freeBlock g c bid = .ok s') :
    Within g budget s' ∧ ∀ c', (s'.inUse g c').card ≤ (s.inUse g c').card := by
  obtain ⟨s'', hok', hi', href', hhash, -⟩ := freeBlock_spec h.inv href
  rw [hok] at hok'
  cases hok'
  obtain ⟨htype, hlists⟩ := freeBlock_lists hok
  refine ⟨h.of_lists hi' htype fun c' => ?_, fun c' => Finset.card_le_card fun b hb => ?_⟩
  · rw [hhash]
    rcases hlists with hlists | hlists
    · rw [hlists]
      exact h.sorted c'
    · have hsorted : ∀ l, (l.Pairwise fun a b => s.blockHash c a ≠ none → s.blockHash c b ≠ none) →
          ((s.setFreeLittle c l).freeLittleBlocks c').Pairwise fun a b => s.blockHash c' a ≠ none → s.blockHash c' b ≠ none :=
        fun l hl => (forall_update_iff _ fun c' => List.Pairwise fun a b => s.blockHash c' a ≠ none → s.blockHash c' b ≠ none).mpr
          ⟨hl, fun c' _ => h.sorted c'⟩ c'
      rw [hlists, pushFree]
      cases hb : s.blockHash c bid with
      | none => exact hsorted _ (pairwise_cons.mpr ⟨fun b _ hcon => absurd hb hcon, h.sorted c⟩)
      | some x =>
        refine hsorted _ (pairwise_append.mpr ⟨h.sorted c, pairwise_singleton _ _, fun a _ b hmem _ => ?_⟩)
        rw [mem_singleton.mp hmem, hb]
        exact Option.some_ne_none x
  · rw [mem_inUse h.inv]
    rw [mem_inUse hi', hhash, href', update_block] at hb
    refine hb.imp_left fun hne hzero => hne ?_
    split_ifs with hsame
    · rw [← hsame.1, ← hsame.2, hzero]
    · exact hzero

theorem Within.touch (hhash : s.blockHash c bid ≠ none) (hok : s.touch g c bid = .ok s') :
    Within g budget s' ∧ ∀ c', (s'.inUse g c').card ≤ (s.inUse g c').card := by
  obtain ⟨s'', hok', hi', href', hsame, -⟩ := touch_spec h.inv (.inr hhash)
  rw [hok] at hok'
  cases hok'
  obtain ⟨htype, hlists⟩ := touch_lists hok
  refine ⟨h.of_lists hi' htype fun c' => ?_, fun c' => Finset.card_le_card fun b hb => ?_⟩
  · exact sorted_of_sublist (h.sorted c') (hlists c') fun b _ => by rw [hsame]
  · rw [mem_inUse h.inv]
    rw [mem_inUse hi', hsame, href', update_block] at hb
    split_ifs at hb with hnew
    · exact .inr (hnew.1 ▸ hnew.2 ▸ hhash)
    · exact hb

/-- Publishing a block brings nothing new into use: it was referenced, and its twin was committed. -/
theorem Within.getOrCommit {x : H} {t : Option ℕ} (href : s.refCnt c bid ≠ 0)
    (hnone : s.blockHash c bid = none) (hok : s.getOrCommitIntoPrefixCache g x c bid = .ok (t, s')) :
    Within g budget s' ∧ ∀ c', (s'.inUse g c').card ≤ (s.inUse g c').card := by
  have hreal := (h.inv.typed_of_ref c bid href).1.ne_zero
  simp only [getOrCommitIntoPrefixCache, hreal, if_false] at hok
  cases hget : (s.prefixCaches c).get? x with
  | none =>
    obtain ⟨s1, hcommit, hi1, href1, hhash1⟩ := commitIntoPrefixCache_spec h.inv href hnone hget
    rw [hget] at hok
    simp only [hcommit, ok_bind, pure_eq_ok, Except.ok.injEq, Prod.mk.injEq] at hok
    obtain ⟨-, rfl⟩ := hok
    have hlists : s1.littleBlockType = s.littleBlockType ∧ s1.freeLittleBlocks = s.freeLittleBlocks := by
      simp only [commitIntoPrefixCache] at hcommit
      split_ifs at hcommit
      cases hcommit
      exact ⟨rfl, rfl⟩
    have hsame : ∀ c' b, ¬(c' = c ∧ b = bid) → s1.blockHash c' b = s.blockHash c' b := fun c' b hb => by
      rw [hhash1, update_block, if_neg hb]
    refine ⟨h.of_lists hi1 hlists.1 fun c' => ?_, fun c' => Finset.card_le_card fun b hb => ?_⟩
    · rw [hlists.2]
      refine sorted_of_sublist (h.sorted c') (.refl _) fun b hb => hsame c' b ?_
      rintro ⟨rfl, rfl⟩
      exact href ((h.inv.little_mem _ _).mp hb).2.2
    · rw [mem_inUse h.inv]
      rw [mem_inUse hi1, href1] at hb
      by_cases hb' : c' = c ∧ b = bid
      · exact .inl (hb'.1 ▸ hb'.2 ▸ href)
      · rwa [hsame c' b hb'] at hb
  | some twin =>
    have htwin := (h.inv.cache c x twin).mp hget
    have hne : bid ≠ twin := by
      rintro rfl
      rw [hnone] at htwin
      cases htwin
    rw [hget] at hok
    simp only [hne, if_false] at hok
    obtain ⟨s1, htouch, hok⟩ := bind_eq_ok.mp hok
    obtain ⟨s1', htouch', -, href1, hhash1, -⟩ := touch_spec h.inv (.inr (htwin.trans_ne (Option.some_ne_none _)))
    rw [htouch] at htouch'
    cases htouch'
    obtain ⟨hw1, hle1⟩ := h.touch (htwin.trans_ne (Option.some_ne_none _)) htouch
    rw [hhash1] at hok
    simp only [hnone, ne_eq, not_true_eq_false, if_false] at hok
    obtain ⟨s2, hfree, hok⟩ := bind_eq_ok.mp hok
    cases hok
    obtain ⟨hw2, hle2⟩ := hw1.freeBlock (by simpa [href1, hne] using href) hfree
    exact ⟨hw2, fun c' => (hle2 c').trans (hle1 c')⟩

end MojoProse.KvCache.JengaBlockPool
