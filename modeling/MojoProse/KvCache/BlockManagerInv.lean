import MojoProse.KvCache.BlockLoops

/-! The invariant of the manager.

    On each replica the references are those of the rows of the requests claimed there, those of the
    transfers in flight, and those a call has in hand. Behind its committed blocks a request has only
    fresh ones: no other holder, nothing published. -/

namespace MojoProse.KvCache.BlockManager
open Schemes BlockPool Function List
variable {H R : Type} {cfg : BlockManagerConfig H} {s s' : BlockManager cfg R}
  {r r' : R} {ρ ρ' : cfg.Replica} {hand : cfg.Replica → ℕ → ℕ} {p' : BlockPool H} {w w' v a : ℕ → ℕ} {b : ℕ}
  {l : List ℕ} {still : List (PagedTransfer H)}

def held (s : BlockManager cfg R) (ρ : cfg.Replica) : ℕ → ℕ := tally (requestBlocks cfg s ρ)

def pins (s : BlockManager cfg R) (ρ : cfg.Replica) : ℕ → ℕ := pinsOf (s.pendingTransfers ρ)

/-- What one claimed request holds on a replica. -/
def share (blocks : R → List ℕ) (ρ : cfg.Replica) (e : R × cfg.Replica) : ℕ → ℕ :=
  if e.2 = ρ then tally (blocks e.1) else 0

theorem held_eq_sum (s : BlockManager cfg R) (ρ : cfg.Replica) :
    held s ρ = (s.reqToReplica.entries.map (share s.reqToBlocks ρ)).sum := by
  rw [held, requestBlocks]
  induction s.reqToReplica.entries with
  | nil => rfl
  | cons e l ih =>
    rw [map_cons, sum_cons, ← ih, share]
    split_ifs with he
    · rw [filter_cons_of_pos (by simpa using he), flatMap_cons, tally_append]
    · rw [filter_cons_of_neg (by simpa using he), zero_add]

abbrev withPool (s : BlockManager cfg R) (ρ : cfg.Replica) (p : BlockPool H) : BlockManager cfg R :=
  { s with pools := update s.pools ρ p }

abbrev withTransfers (s : BlockManager cfg R) (ρ : cfg.Replica) (l : List (PagedTransfer H)) : BlockManager cfg R :=
  { s with pendingTransfers := update s.pendingTransfers ρ l }

theorem onReplica_of_ok {α : Type} {m : BlockPool.Eff H R α} {x : α} (hok : m (s.pools ρ) = .ok x p') :
    onReplica ρ m s = .ok x (withPool s ρ p') := by
  rw [onReplica, zoom]
  simp [hok]

theorem onReplica_ends {α : Type} {m : BlockPool.Eff H R α} {Q : α → BlockManager cfg R → Prop}
    {E : BlockError R → BlockManager cfg R → Prop}
    (hm : Ends (m (s.pools ρ)) (fun x p => Q x (withPool s ρ p)) (fun e p => E e (withPool s ρ p))) :
    Ends (onReplica ρ m s) Q E := Ends.zoom hm

section

variable [DecidableEq R]

abbrev withBlocks (s : BlockManager cfg R) (r : R) (l : List ℕ) : BlockManager cfg R :=
  { s with reqToBlocks := update s.reqToBlocks r l }

def heldByOthers (s : BlockManager cfg R) (r : R) (ρ : cfg.Replica) : ℕ → ℕ :=
  ((s.reqToReplica.erase r).entries.map (share s.reqToBlocks ρ)).sum

theorem held_of_claimed (hr : s.reqToReplica.get? r = some ρ) (ρ' : cfg.Replica) :
    held s ρ' = share s.reqToBlocks ρ' (r, ρ) + heldByOthers s r ρ' := by
  rw [held_eq_sum, Dict.sum_erase hr, heldByOthers]

theorem held_here (hr : s.reqToReplica.get? r = some ρ) : held s ρ = tally (s.reqToBlocks r) + heldByOthers s r ρ := by
  rw [held_of_claimed hr, share, if_pos rfl]

theorem heldByOthers_congr (hrep : s'.reqToReplica = s.reqToReplica)
    (hblks : ∀ r' ≠ r, s'.reqToBlocks r' = s.reqToBlocks r') (ρ : cfg.Replica) :
    heldByOthers s' r ρ = heldByOthers s r ρ := by
  rw [heldByOthers, hrep]
  refine congrArg sum (map_congr_left fun e he => ?_)
  have hne : e.1 ≠ r := by
    simp only [Dict.erase, Dict.filter, mem_filter, decide_eq_true_eq] at he
    exact he.2
  rw [share, share, hblks e.1 hne]

theorem tally_le_heldByOthers (hr : s.reqToReplica.get? r = some ρ) (hne : r ≠ r') :
    tally (s.reqToBlocks r) ≤ heldByOthers s r' ρ := by
  have hr' : (s.reqToReplica.erase r').get? r = some ρ := Dict.get?_erase.mpr ⟨hr, hne⟩
  rw [heldByOthers, Dict.sum_erase hr', share]
  intro k
  simp

structure RequestOk (s : BlockManager cfg R) (r : R) : Prop where
  window : (s.contexts r).tokens.processingRange.start ≤ (s.contexts r).tokens.processingRange.stop
  committed_le : s.reqToCommittedIdx r ≤ (s.contexts r).tokens.processedLength
  aligned : cfg.blockSize ∣ s.reqToCommittedIdx r
  rows : numCommittedBlocks cfg s r ≤ (s.reqToBlocks r).length
  fresh : ∀ ρ, s.reqToReplica.get? r = some ρ →
    ∀ b ∈ (s.reqToBlocks r).drop (numCommittedBlocks cfg s r), (s.pools ρ).Fresh b
  unclaimed : s.reqToReplica.get? r = none → s.reqToCommittedIdx r = 0

theorem RequestOk.congr (h : RequestOk s r) (hctx : s'.contexts r = s.contexts r)
    (hidx : s'.reqToCommittedIdx r = s.reqToCommittedIdx r) (hblks : s'.reqToBlocks r = s.reqToBlocks r)
    (hrep : s'.reqToReplica.get? r = s.reqToReplica.get? r)
    (hfresh : ∀ ρ, s.reqToReplica.get? r = some ρ → ∀ b ∈ s.reqToBlocks r,
      (s.pools ρ).Fresh b → (s'.pools ρ).Fresh b) : RequestOk s' r := by
  obtain ⟨h1, h2, h3, h4, h5, h6⟩ := h
  refine ⟨by rwa [hctx], by rwa [hidx, hctx], by rwa [hidx], ?_, ?_, ?_⟩
  · rw [numCommittedBlocks, hidx, hblks]
    exact h4
  · intro ρ hr b hb
    rw [hrep] at hr
    rw [numCommittedBlocks, hidx, hblks] at hb
    exact hfresh ρ hr b (mem_of_mem_drop hb) (h5 ρ hr b hb)
  · rw [hrep, hidx]
    exact h6

theorem fresh_of_deal (hd : Deals (s.pools ρ) w p' w')
    (hw : ∀ b, s.reqToReplica.get? r = some ρ → b ∈ s.reqToBlocks r → (s.pools ρ).Fresh b → w b = 0)
    (ρ' : cfg.Replica) (hr : s.reqToReplica.get? r = some ρ') (b : ℕ) (hb : b ∈ s.reqToBlocks r)
    (hf : (s.pools ρ').Fresh b) : (update s.pools ρ p' ρ').Fresh b := by
  rcases eq_or_ne ρ' ρ with rfl | hne
  · rw [update_self]
    exact hd.fresh hf (hw b hr hb hf)
  · rwa [update_of_ne hne]

end

variable [DecidableEq H] [DecidableEq R]

/-- Every reference is accounted for; `hand` is what the call in progress has in hand. -/
structure Books (hand : cfg.Replica → ℕ → ℕ) (s : BlockManager cfg R) : Prop where
  pools : ∀ ρ, (s.pools ρ).Inv cfg.totalNumBlocks
  refs : ∀ ρ, (s.pools ρ).refCnt = held s ρ + pins s ρ + hand ρ
  matched : ∀ ρ, ∀ t ∈ s.pendingTransfers ρ, Matched t
  unclaimed : ∀ r, s.reqToReplica.get? r = none → s.reqToBlocks r = []

section

variable (h : Books hand s)
include h

theorem Books.pins_le (ρ : cfg.Replica) : pins s ρ ≤ (s.pools ρ).refCnt := by
  rw [h.refs ρ]
  intro k
  simp only [Pi.add_apply]
  omega

theorem Books.row_le (hr : s.reqToReplica.get? r = some ρ) : tally (s.reqToBlocks r) + hand ρ ≤ (s.pools ρ).refCnt := by
  rw [h.refs ρ, held_here hr]
  intro k
  simp only [Pi.add_apply]
  omega

/-- A fresh block of a request is in its row once and nowhere else. -/
theorem Books.alone (hr : s.reqToReplica.get? r = some ρ) (hb : b ∈ s.reqToBlocks r) (hf : (s.pools ρ).Fresh b) :
    tally (s.reqToBlocks r) b = 1 ∧ heldByOthers s r ρ b = 0 ∧ pins s ρ b = 0 ∧ hand ρ b = 0 := by
  have hrefs := congrFun (h.refs ρ) b
  rw [hf.1, held_here hr] at hrefs
  simp only [Pi.add_apply] at hrefs
  have hpos : tally (s.reqToBlocks r) b ≠ 0 := fun h0 => tally_eq_zero_iff.mp h0 hb
  omega

/-- The books after a deal of the pool of one replica: what is counted is what changed. -/
theorem Books.trade (hd : Deals (s.pools ρ) w p' w') (hi' : p'.Inv cfg.totalNumBlocks)
    {s' : BlockManager cfg R} {hand' : cfg.Replica → ℕ → ℕ} (hpools : s'.pools = update s.pools ρ p')
    (hhere : held s' ρ + pins s' ρ + hand' ρ + w = held s ρ + pins s ρ + hand ρ + w')
    (hthere : ∀ ρ' ≠ ρ, held s' ρ' + pins s' ρ' + hand' ρ' = held s ρ' + pins s ρ' + hand ρ')
    (hm : ∀ ρ', ∀ t ∈ s'.pendingTransfers ρ', Matched t)
    (hu : ∀ r', s'.reqToReplica.get? r' = none → s'.reqToBlocks r' = []) : Books hand' s' := by
  refine ⟨?_, fun ρ' => ?_, hm, hu⟩ <;> rw [hpools]
  · exact (forall_update_iff _ fun _ => BlockPool.Inv cfg.totalNumBlocks).mpr ⟨hi', fun ρ' _ => h.pools ρ'⟩
  rcases eq_or_ne ρ' ρ with rfl | hne
  · rw [update_self]
    funext k
    have htrade := hd.trade k
    have hbook := congrFun (h.refs ρ') k
    have hk := congrFun hhere k
    simp only [Pi.add_apply] at hbook hk ⊢
    omega
  · rw [update_of_ne hne, h.refs ρ', hthere ρ' hne]

/-- A deal of the pool against the row of one request and the hand. -/
theorem Books.dealRow (hr : s.reqToReplica.get? r = some ρ)
    (hd : Deals (s.pools ρ) w p' w') (hi' : p'.Inv cfg.totalNumBlocks)
    (hw : tally (s.reqToBlocks r) + hand ρ = w + v) (hw' : tally l + a = w' + v) :
    Books (update hand ρ a) (withBlocks (withPool s ρ p') r l) := by
  have hrow : ∀ ρ', held (withBlocks (withPool s ρ p') r l) ρ' =
      (if ρ = ρ' then tally l else 0) + heldByOthers s r ρ' := by
    intro ρ'
    have hothers : heldByOthers (withBlocks (withPool s ρ p') r l) r ρ' = heldByOthers s r ρ' :=
      heldByOthers_congr (by rfl) (fun r' hne => update_of_ne hne _ _) ρ'
    rw [held_of_claimed (s := withBlocks (withPool s ρ p') r l) hr, share, hothers]
    simp
  refine h.trade hd hi' rfl ?_ (fun ρ' hne => ?_) h.matched fun r' hr' => ?_
  · rw [hrow, if_pos rfl, update_self, held_here hr]
    funext k
    have h1 := congrFun hw k
    have h2 := congrFun hw' k
    simp only [Pi.add_apply, pins] at h1 h2 ⊢
    omega
  · rw [hrow, if_neg hne.symm, update_of_ne hne, held_of_claimed hr ρ', share, if_neg hne.symm]
    rfl
  · have hne : r' ≠ r := by
      rintro rfl
      rw [hr] at hr'
      cases hr'
    exact (update_of_ne hne _ _).trans (h.unclaimed r' hr')

theorem Books.deal (hd : Deals (s.pools ρ) w p' w') (hi' : p'.Inv cfg.totalNumBlocks) (hw : hand ρ = w + v) :
    Books (update hand ρ (w' + v)) (withPool s ρ p') := by
  refine h.trade hd hi' rfl ?_ (fun ρ' hne => ?_) h.matched h.unclaimed
  · rw [update_self, hw]
    ac_rfl
  · rw [update_of_ne hne]
    rfl

theorem Books.dealPins (hd : Deals (s.pools ρ) w p' w') (hi' : p'.Inv cfg.totalNumBlocks)
    (hw : pins s ρ + hand ρ = w + v) (hw' : pinsOf still + a = w' + v) (hm : ∀ t ∈ still, Matched t) :
    Books (update hand ρ a) (withTransfers (withPool s ρ p') ρ still) := by
  have hpins : ∀ ρ', pins (withTransfers (withPool s ρ p') ρ still) ρ' = update (pins s) ρ (pinsOf still) ρ' :=
    apply_update (fun _ => pinsOf) s.pendingTransfers ρ still
  refine h.trade hd hi' rfl ?_ (fun ρ' hne => ?_)
    ((forall_update_iff _ fun _ l => ∀ t ∈ l, Matched t).mpr ⟨hm, fun ρ' _ => h.matched ρ'⟩) h.unclaimed
  · rw [hpins, update_self, update_self]
    funext k
    have h1 := congrFun hw k
    have h2 := congrFun hw' k
    have hheld : held (withTransfers (withPool s ρ p') ρ still) ρ = held s ρ := rfl
    simp only [hheld, Pi.add_apply] at h1 h2 ⊢
    omega
  · rw [hpins, update_of_ne hne, update_of_ne hne]
    rfl

end

structure Inv (hand : cfg.Replica → ℕ → ℕ) (s : BlockManager cfg R) : Prop where
  books : Books hand s
  request : ∀ r, RequestOk s r

theorem Inv.deal (h : Inv hand s) (hd : Deals (s.pools ρ) w p' w')
    (hi' : p'.Inv cfg.totalNumBlocks) (hw : hand ρ = w + v) : Inv (update hand ρ (w' + v)) (withPool s ρ p') := by
  refine ⟨h.books.deal hd hi' hw, fun r => (h.request r).congr rfl rfl rfl rfl ?_⟩
  refine fresh_of_deal hd fun b hr hb hf => ?_
  have := (h.books.alone hr hb hf).2.2.2
  rw [hw, Pi.add_apply] at this
  omega

theorem Inv.dealPins (h : Inv hand s) (hd : Deals (s.pools ρ) w p' w') (hi' : p'.Inv cfg.totalNumBlocks)
    (hw : pins s ρ + hand ρ = w + v) (hw' : pinsOf still + a = w' + v) (hm : ∀ t ∈ still, Matched t) :
    Inv (update hand ρ a) (withTransfers (withPool s ρ p') ρ still) := by
  refine ⟨h.books.dealPins hd hi' hw hw' hm, fun r => (h.request r).congr rfl rfl rfl rfl ?_⟩
  refine fresh_of_deal hd fun b hr hb hf => ?_
  obtain ⟨-, -, h1, h2⟩ := h.books.alone hr hb hf
  have := congrFun hw b
  simp only [Pi.add_apply] at this
  omega

/-- The other requests, in a call that deals with the pool out of the row of `r` and its hand. -/
theorem RequestOk.dealRow (h : RequestOk s r') (hbooks : Books hand s)
    (hr : s.reqToReplica.get? r = some ρ) (hne : r' ≠ r) (hd : Deals (s.pools ρ) w p' w')
    (hw : tally (s.reqToBlocks r) + hand ρ = w + v) : RequestOk (withBlocks (withPool s ρ p') r l) r' := by
  refine h.congr rfl rfl (update_of_ne hne _ _) rfl ?_
  refine fresh_of_deal hd fun b hr' hb hf => ?_
  obtain ⟨-, h1, -, h2⟩ := hbooks.alone hr' hb hf
  have h3 : tally (s.reqToBlocks r) b ≤ heldByOthers s r' ρ b := tally_le_heldByOthers hr hne.symm b
  have h4 := congrFun hw b
  simp only [Pi.add_apply] at h4
  omega

end MojoProse.KvCache.BlockManager
