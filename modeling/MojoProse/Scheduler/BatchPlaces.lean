import MojoProse.Scheduler.BatchConstructor

/-! Where a request is. A place of the abstract model stands for the containers that hold a request there; every step of
    the batch constructor takes one request from one place to another and leaves all others where they are. -/

namespace MojoProse.Scheduler
open Schemes Dict

/-- The containers that may hold a request. -/
inductive Tag where
  | grammarPending
  | cePending
  | ce (i : ℕ)
  | tg (i : ℕ)
  | deferredLora (i : ℕ)
  | onloading (i : ℕ)
  | bound (i : ℕ)
  | batch (i : ℕ)
  deriving DecidableEq

/-- A decoding request stays listed in its queue while in flight. The last three occur only inside a call: off a queue
    of replica `i`, off the containers of no replica, and back from a batch. -/
inductive Place where
  | grammarPending
  | cePending
  | ce (i : ℕ)
  | tg (i : ℕ)
  | deferredLora (i : ℕ)
  | onloading (i : ℕ)
  | inFlight (i : ℕ) (decoding : Bool)
  | inHand (i : ℕ)
  | unbound
  | backToCe (i : ℕ)
  deriving DecidableEq

/-- The place of the requests in a container, where it is the only one. -/
def Tag.home : Tag → Option Place
  | .grammarPending => some .grammarPending
  | .cePending => some .cePending
  | .ce i => some (.ce i)
  | .deferredLora i => some (.deferredLora i)
  | .onloading i => some (.onloading i)
  | _ => none

namespace Place

def tags : Place → List Tag
  | .grammarPending => [.grammarPending]
  | .cePending => [.cePending]
  | .ce i => [.ce i, .bound i]
  | .tg i => [.tg i, .bound i]
  | .deferredLora i => [.deferredLora i, .bound i]
  | .onloading i => [.onloading i, .bound i]
  | .inFlight i false => [.batch i, .bound i]
  | .inFlight i true => [.batch i, .tg i, .bound i]
  | .inHand i => [.bound i]
  | .unbound => []
  | .backToCe i => [.batch i, .ce i, .bound i]

/-- The places between the calls. -/
def Settled : Place → Prop
  | .inHand _ | .unbound | .backToCe _ => False
  | _ => True

theorem eq_of_tags {pl pl' : Place} (hs : pl.Settled) (hs' : pl'.Settled)
    (h : ∀ t, t ∈ pl.tags ↔ t ∈ pl'.tags) : pl = pl' := by
  have hsub : ∀ t ∈ pl.tags, t ∈ pl'.tags := fun t => (h t).mp
  have hsub' : ∀ t ∈ pl'.tags, t ∈ pl.tags := fun t => (h t).mpr
  clear h
  rcases pl with _ | _ | i | i | i | i | ⟨i, _ | _⟩ | i | _ | i <;>
    rcases pl' with _ | _ | j | j | j | j | ⟨j, _ | _⟩ | j | _ | j <;> simp_all [tags, Settled]

end Place

open Place

namespace BatchConstructor
variable {R : Type} [DecidableEq R] {s s' : BatchConstructor R} {r : R} {i : ℕ}

def Has (s : BatchConstructor R) (r : R) : Tag → Prop
  | .grammarPending => (s.grammarPending.get? r).isSome
  | .cePending => r ∈ s.cePending
  | .ce i => r ∈ (s.replicas i).ceReqs
  | .tg i => r ∈ (s.replicas i).tgReqs
  | .deferredLora i => r ∈ (s.replicas i).deferredLoraRequests
  | .onloading i => s.onloadingReqs.get? r = some i
  | .bound i => s.boundRequests r = some i
  | .batch i => r ∈ s.batches i

/-- The request is in the containers of the place, and in no other one. -/
def At (s : BatchConstructor R) (r : R) (pl : Place) : Prop := ∀ t, s.Has r t ↔ t ∈ pl.tags

theorem contains_iff : s.contains r = true ↔
    s.Has r .grammarPending ∨ s.Has r .cePending ∨ ∃ i, s.Has r (.bound i) ∨ s.Has r (.onloading i) := by
  simp only [contains, Has, Bool.or_eq_true, decide_eq_true_eq, Option.isSome_iff_exists, exists_or]
  tauto

variable {pl : Place} {t : Tag}

theorem At.contains (h : s.At r pl) (hne : pl ≠ .unbound) : s.contains r = true := by
  rw [contains_iff, h, h]
  cases pl with
  | grammarPending => simp [tags]
  | cePending => simp [tags]
  | unbound => exact absurd rfl hne
  | inFlight i decoding =>
    refine .inr (.inr ⟨i, .inl ((h _).mpr ?_)⟩)
    cases decoding <;> simp [tags]
  | ce i | tg i | deferredLora i | onloading i | inHand i | backToCe i =>
    exact .inr (.inr ⟨i, .inl ((h _).mpr (by simp [tags]))⟩)

/-- What is left of a request that is gone: it may still be listed in the batch in flight. -/
def Absent (s : BatchConstructor R) (r : R) : Prop := ∀ t, s.Has r t → ∃ i, t = .batch i

theorem Absent.contains (h : s.Absent r) : s.contains r = false := by
  rw [Bool.eq_false_iff, ne_eq, contains_iff]
  rintro (hc | hc | ⟨i, hc | hc⟩) <;> obtain ⟨j, hj⟩ := h _ hc <;> cases hj

/-- Every request but `r` is at a place or gone. -/
def PlacedBut (s : BatchConstructor R) (r : R) : Prop :=
  ∀ r', r' ≠ r → (∃ pl : Place, pl.Settled ∧ s.At r' pl) ∨ s.Absent r'

def Placed (s : BatchConstructor R) : Prop :=
  ∀ r, (∃ pl : Place, pl.Settled ∧ s.At r pl) ∨ s.Absent r

section

variable (h : s.Placed)
include h

theorem Placed.but (r : R) : s.PlacedBut r := fun r' _ => h r'

theorem Placed.at_of_contains (hc : s.contains r = true) : ∃ pl : Place, pl.Settled ∧ s.At r pl := by
  rcases h r with hp | ha
  · exact hp
  · rw [ha.contains] at hc
    cases hc

theorem Placed.at_of_has (ht : s.Has r t) (hbatch : ∀ i, t ≠ .batch i) :
    ∃ pl : Place, pl.Settled ∧ s.At r pl ∧ t ∈ pl.tags := by
  rcases h r with ⟨pl, hs, hat⟩ | ha
  · exact ⟨pl, hs, hat, (hat t).mp ht⟩
  · obtain ⟨i, rfl⟩ := ha t ht
    exact absurd rfl (hbatch i)

theorem Placed.at_home (ht : s.Has r t) (hhome : t.home = some pl) : s.At r pl := by
  obtain ⟨pl', hs, hat, hmem⟩ := h.at_of_has ht (by rintro i rfl; cases hhome)
  rcases pl' with _ | _ | j | j | j | j | ⟨j, _ | _⟩ | j | _ | j <;> cases t <;>
    simp_all [tags, Settled, Tag.home]

theorem Placed.at_ce (hr : r ∈ (s.replicas i).ceReqs) : s.At r (.ce i) := h.at_home (t := .ce i) hr rfl

theorem Placed.at_deferredLora (hr : r ∈ (s.replicas i).deferredLoraRequests) : s.At r (.deferredLora i) :=
  h.at_home (t := .deferredLora i) hr rfl

theorem Placed.at_onloading (hr : s.onloadingReqs.get? r = some i) : s.At r (.onloading i) :=
  h.at_home (t := .onloading i) hr rfl

theorem Placed.at_cePending (hr : r ∈ s.cePending) : s.At r .cePending := h.at_home (t := .cePending) hr rfl

theorem Placed.at_grammarPending (hr : (s.grammarPending.get? r).isSome) : s.At r .grammarPending :=
  h.at_home (t := .grammarPending) hr rfl

theorem Placed.at_tg (hr : r ∈ (s.replicas i).tgReqs) (hb : r ∉ s.batches i) : s.At r (.tg i) := by
  obtain ⟨pl, hs, hat, ht⟩ := h.at_of_has (t := .tg i) hr (by simp)
  have hbatch : Tag.batch i ∉ pl.tags := fun hmem => hb ((hat _).mpr hmem)
  rcases pl with _ | _ | j | j | j | j | ⟨j, _ | _⟩ | j | _ | j <;>
    simp_all [tags, Settled]

theorem Placed.at_batch (hr : r ∈ s.batches i) : (∃ decoding, s.At r (.inFlight i decoding)) ∨ s.Absent r := by
  rcases h r with ⟨pl, hs, hat⟩ | ha
  · have ht : Tag.batch i ∈ pl.tags := (hat _).mp hr
    rcases pl with _ | _ | j | j | j | j | ⟨j, _ | _⟩ | j | _ | j <;>
      simp_all [tags, Settled]
  · exact .inr ha

end

/-- A step after which the container `t` holds `r` or not, as `b` says, and nothing else has moved. -/
structure Sets (s s' : BatchConstructor R) (r : R) (t : Tag) (b : Prop) : Prop where
  has : ∀ r' t', s'.Has r' t' ↔ if r' = r ∧ t' = t then b else s.Has r' t'
  claimed : s'.claimed = s.claimed
  failed : s'.grammarFailed = s.grammarFailed
  releases : s'.releases = s.releases

variable {b : Prop}

theorem Sets.intro (hq : ∀ r', s'.Has r' t ↔ if r' = r then b else s.Has r' t)
    (ht : ∀ r' t', t' ≠ t → (s'.Has r' t' ↔ s.Has r' t')) (hclaim : s'.claimed = s.claimed)
    (hfailed : s'.grammarFailed = s.grammarFailed) (hrel : s'.releases = s.releases) : Sets s s' r t b := by
  refine ⟨fun r' t' => ?_, hclaim, hfailed, hrel⟩
  by_cases htt : t' = t
  · subst htt
    simpa using hq r'
  · simpa [htt] using ht r' t' htt

theorem has_setReplica (q : ReplicaRequests R) (hce : t = .ce i → q.ceReqs = (s.replicas i).ceReqs)
    (htg : t = .tg i → q.tgReqs = (s.replicas i).tgReqs)
    (hlora : t = .deferredLora i → q.deferredLoraRequests = (s.replicas i).deferredLoraRequests) :
    (s.setReplica i q).Has r t ↔ s.Has r t := by
  cases t with
  | ce j | tg j | deferredLora j =>
    by_cases hj : j = i
    · simp_all [Has, setReplica]
    · simp [Has, setReplica, hj]
  | _ => rfl

variable {q : Queue R}

theorem sets_ce (hq : ∀ r', r' ∈ q ↔ if r' = r then b else r' ∈ (s.replicas i).ceReqs) :
    Sets s (s.setCe i q) r (.ce i) b := by
  refine Sets.intro (by simpa [Has, setCe, setReplica] using hq) (fun r' t' ht => ?_) rfl rfl rfl
  exact has_setReplica _ (absurd · ht) (fun _ => rfl) fun _ => rfl

theorem sets_tg (hq : ∀ r', r' ∈ q ↔ if r' = r then b else r' ∈ (s.replicas i).tgReqs) :
    Sets s (s.setTg i q) r (.tg i) b := by
  refine Sets.intro (by simpa [Has, setTg, setReplica] using hq) (fun r' t' ht => ?_) rfl rfl rfl
  exact has_setReplica _ (fun _ => rfl) (absurd · ht) fun _ => rfl

theorem sets_deferredLora (hq : ∀ r', r' ∈ q ↔ if r' = r then b else r' ∈ (s.replicas i).deferredLoraRequests) :
    Sets s (s.setDeferred i q) r (.deferredLora i) b := by
  refine Sets.intro (by simpa [Has, setDeferred, setReplica] using hq) (fun r' t' ht => ?_) rfl rfl rfl
  exact has_setReplica _ (fun _ => rfl) (fun _ => rfl) (absurd · ht)

theorem sets_batch (hq : ∀ r', r' ∈ q ↔ if r' = r then b else r' ∈ s.batches i) :
    Sets s (s.setBatch i q) r (.batch i) b := by
  refine Sets.intro (by simpa [Has, setBatch] using hq) (fun r' t' ht => ?_) rfl rfl rfl
  cases t' with
  | batch j =>
    have hj : j ≠ i := by rintro rfl; exact ht rfl
    simp [Has, setBatch, hj]
  | _ => rfl

theorem sets_cePending (hq : ∀ r', r' ∈ q ↔ if r' = r then b else r' ∈ s.cePending) :
    Sets s { s with cePending := q } r .cePending b := by
  refine Sets.intro hq (fun r' t' ht => ?_) rfl rfl rfl
  cases t' with
  | cePending => exact absurd rfl ht
  | _ => rfl

theorem sets_grammarPending {d : Dict R (Option ℕ)}
    (hd : ∀ r', (d.get? r').isSome ↔ if r' = r then b else (s.grammarPending.get? r').isSome) :
    Sets s { s with grammarPending := d } r .grammarPending b := by
  refine Sets.intro hd (fun r' t' ht => ?_) rfl rfl rfl
  cases t' with
  | grammarPending => exact absurd rfl ht
  | _ => rfl

/-- A map from requests to a replica is a container for each replica; the request is in no other one. -/
theorem sets_onloading {d : Dict R ℕ} (hat : s.At r pl) (hold : ∀ j, .onloading j ∈ pl.tags → j = i)
    (hd : ∀ r' j, d.get? r' = some j ↔ if r' = r then j = i ∧ b else s.onloadingReqs.get? r' = some j) :
    Sets s { s with onloadingReqs := d } r (.onloading i) b := by
  refine Sets.intro (by simpa [Has] using (hd · i)) (fun r' t' ht => ?_) rfl rfl rfl
  cases t' with
  | onloading j =>
    have hj : j ≠ i := by rintro rfl; exact ht rfl
    have hnot : s.onloadingReqs.get? r ≠ some j := fun h => hj (hold j ((hat _).mp h))
    simp only [Has, hd]
    split_ifs <;> simp_all
  | _ => rfl

theorem sets_bound {o : Option ℕ} (hat : s.At r pl) (hold : ∀ j, .bound j ∈ pl.tags → j = i)
    (ho : ∀ j, o = some j ↔ j = i ∧ b) : Sets s (s.setBound r o) r (.bound i) b := by
  refine Sets.intro (fun r' => ?_) (fun r' t' ht => ?_) rfl rfl rfl
  · simp only [Has, setBound, Function.update_apply]
    split_ifs <;> simp [ho]
  cases t' with
  | bound j =>
    have hj : j ≠ i := by rintro rfl; exact ht rfl
    have hnot : s.boundRequests r ≠ some j := fun h => hj (hold j ((hat _).mp h))
    simp only [Has, setBound, Function.update_apply]
    split_ifs <;> simp_all
  | _ => rfl

/-- A step that takes `r` to `pl` and leaves all other requests where they are. -/
structure Moves (s s' : BatchConstructor R) (r : R) (pl : Place) : Prop where
  located : s'.At r pl
  frame : ∀ r' t, r' ≠ r → (s'.Has r' t ↔ s.Has r' t)
  claimed : ∀ r', r' ≠ r → s'.claimed r' = s.claimed r'
  failed : s'.grammarFailed = s.grammarFailed
  releases : ∃ l, s'.releases = s.releases ++ l ∧ ∀ r' ∈ l, r' = r

theorem Sets.moves {pl pl' : Place} (hs : Sets s s' r t b) (hat : s.At r pl)
    (htags : ∀ t', t' ∈ pl'.tags ↔ if t' = t then b else t' ∈ pl.tags) : Moves s s' r pl' where
  located t' := by simp [hs.has, htags, hat t']
  frame r' t' hr' := by simp [hs.has, hr']
  claimed r' _ := by rw [hs.claimed]
  failed := hs.failed
  releases := ⟨[], by simp [hs.releases], by simp⟩

theorem Moves.trans {s'' : BatchConstructor R} {pl pl' : Place} (h : Moves s s' r pl)
    (h' : Moves s' s'' r pl') : Moves s s'' r pl' where
  located := h'.located
  frame r' t hr' := (h'.frame r' t hr').trans (h.frame r' t hr')
  claimed r' hr' := (h'.claimed r' hr').trans (h.claimed r' hr')
  failed := h'.failed.trans h.failed
  releases := by
    obtain ⟨l, hl, hmem⟩ := h.releases
    obtain ⟨l', hl', hmem'⟩ := h'.releases
    refine ⟨l ++ l', by rw [hl', hl, List.append_assoc], fun r' hr' => ?_⟩
    rcases List.mem_append.mp hr' with hr' | hr'
    · exact hmem r' hr'
    · exact hmem' r' hr'

theorem Moves.of_has (hat : s.At r pl) (hhas : ∀ r' t, s'.Has r' t ↔ s.Has r' t)
    (hclaim : ∀ r', r' ≠ r → s'.claimed r' = s.claimed r') (hfailed : s'.grammarFailed = s.grammarFailed)
    (hrel : ∃ l, s'.releases = s.releases ++ l ∧ ∀ r' ∈ l, r' = r) : Moves s s' r pl where
  located t := (hhas r t).trans (hat t)
  frame r' t _ := hhas r' t
  claimed := hclaim
  failed := hfailed
  releases := hrel

/-- A step that does not touch the KV cache either. -/
theorem Moves.refl (hat : s.At r pl) (hhas : ∀ r' t, s'.Has r' t ↔ s.Has r' t)
    (hclaim : s'.claimed = s.claimed) (hfailed : s'.grammarFailed = s.grammarFailed)
    (hrel : s'.releases = s.releases) : Moves s s' r pl :=
  Moves.of_has hat hhas (fun r' _ => by rw [hclaim]) hfailed ⟨[], by simp [hrel], by simp⟩

section moves

section
variable (hat : s.At r pl) (hpl : pl = .inHand i ∨ pl = .ce i)
include hat hpl

theorem moves_popCe : Moves s (s.setCe i ((s.replicas i).ceReqs.erase r)) r (.inHand i) := by
  rcases hpl with rfl | rfl <;> exact (sets_ce (b := False) (by grind)).moves hat (by grind [tags])

theorem moves_toFrontCe : Moves s (s.setCe i ((s.replicas i).ceReqs.toFront r)) r (.ce i) := by
  rcases hpl with rfl | rfl <;> exact (sets_ce (b := True) (by grind)).moves hat (by grind [tags])

theorem moves_pushCe : Moves s (s.setCe i ((s.replicas i).ceReqs.push r)) r (.ce i) := by
  rcases hpl with rfl | rfl <;> exact (sets_ce (b := True) (by grind)).moves hat (by grind [tags])

end

theorem moves_pushTg (hat : s.At r (.inHand i)) : Moves s (s.setTg i ((s.replicas i).tgReqs.push r)) r (.tg i) :=
  (sets_tg (b := True) (by grind)).moves hat (by grind [tags])

theorem moves_dropTg (hat : s.At r pl) (hpl : pl = .inHand i ∨ pl = .tg i) :
    Moves s (s.setTg i ((s.replicas i).tgReqs.erase r)) r (.inHand i) := by
  rcases hpl with rfl | rfl <;> exact (sets_tg (b := False) (by grind)).moves hat (by grind [tags])

theorem moves_dropTg_ce (hat : s.At r (.ce i)) : Moves s (s.setTg i ((s.replicas i).tgReqs.erase r)) r (.ce i) :=
  (sets_tg (b := False) (by grind)).moves hat (by grind [tags])

theorem moves_unlistTg (hat : s.At r (.inFlight i true)) :
    Moves s (s.setTg i ((s.replicas i).tgReqs.erase r)) r (.inFlight i false) :=
  (sets_tg (b := False) (by grind)).moves hat (by grind [tags])

theorem moves_listTg {decoding : Bool} (hat : s.At r (.inFlight i decoding)) :
    Moves s (s.setTg i ((s.replicas i).tgReqs.push r)) r (.inFlight i true) := by
  cases decoding <;> exact (sets_tg (b := True) (by grind)).moves hat (by grind [tags])

theorem moves_backToCe (hat : s.At r (.inFlight i false)) :
    Moves s (s.setCe i ((s.replicas i).ceReqs.toFront r)) r (.backToCe i) :=
  (sets_ce (b := True) (by grind)).moves hat (by grind [tags])

theorem moves_defer (hat : s.At r (.inHand i)) :
    Moves s (s.setDeferred i ((s.replicas i).deferredLoraRequests.push r)) r (.deferredLora i) :=
  (sets_deferredLora (b := True) (by grind)).moves hat (by grind [tags])

theorem moves_undefer (hat : s.At r (.deferredLora i)) :
    Moves s (s.setDeferred i ((s.replicas i).deferredLoraRequests.erase r)) r (.inHand i) :=
  (sets_deferredLora (b := False) (by grind)).moves hat (by grind [tags])

theorem moves_onload (hat : s.At r (.inHand i)) :
    Moves s { s with onloadingReqs := s.onloadingReqs.insert r i } r (.onloading i) :=
  (sets_onloading (i := i) (b := True) hat (by simp [tags]) (by grind [get?_insert])).moves hat (by grind [tags])

theorem moves_onloaded (hat : s.At r (.onloading i)) :
    Moves s { s with onloadingReqs := s.onloadingReqs.erase r } r (.inHand i) :=
  (sets_onloading (i := i) (b := False) hat (by simp [tags]) (by grind [get?_erase])).moves hat (by grind [tags])

theorem moves_seat (hat : s.At r (.inHand i)) : Moves s (s.setBatch i ((s.batches i).push r)) r (.inFlight i false) :=
  (sets_batch (b := True) (by grind)).moves hat (by grind [tags])

theorem moves_seatTg (hat : s.At r (.tg i)) : Moves s (s.setBatch i ((s.batches i).push r)) r (.inFlight i true) :=
  (sets_batch (b := True) (by grind)).moves hat (by grind [tags])

theorem moves_unbind (hat : s.At r (.inHand i)) : Moves s (s.setBound r none) r .unbound :=
  (sets_bound (i := i) (b := False) hat (by simp [tags]) (by simp)).moves hat (by grind [tags])

theorem moves_bind (hat : s.At r .unbound) (i : ℕ) : Moves s (s.setBound r (some i)) r (.inHand i) :=
  (sets_bound (i := i) (b := True) hat (by simp [tags]) (by simp [eq_comm])).moves hat (by grind [tags])

theorem moves_pool (hat : s.At r .unbound) (hq : ∀ r', r' ∈ q ↔ if r' = r then True else r' ∈ s.cePending) :
    Moves s { s with cePending := q } r .cePending :=
  (sets_cePending hq).moves hat (by grind [tags])

theorem moves_unpool (hat : s.At r .cePending) : Moves s { s with cePending := s.cePending.erase r } r .unbound :=
  (sets_cePending (b := False) (by grind)).moves hat (by grind [tags])

theorem moves_awaitGrammar (hat : s.At r .unbound) (o : Option ℕ) :
    Moves s { s with grammarPending := s.grammarPending.insert r o } r .grammarPending :=
  (sets_grammarPending (b := True) (by grind [get?_insert_self, get?_insert_of_ne])).moves hat (by grind [tags])

theorem moves_grammarBuilt (hat : s.At r .grammarPending) :
    Moves s { s with grammarPending := s.grammarPending.erase r } r .unbound :=
  (sets_grammarPending (b := False) (by grind [get?_erase_self, get?_erase_of_ne])).moves hat (by grind [tags])

end moves

end BatchConstructor

end MojoProse.Scheduler
