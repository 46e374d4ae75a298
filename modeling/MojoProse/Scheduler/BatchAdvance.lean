import MojoProse.Scheduler.BatchMoves

/-! `release_request` and `advance_requests`: the way out of the constructor, and the way from the batch
    back to the queues. -/

namespace MojoProse.Scheduler.BatchConstructor
open Schemes Place List Ends

variable {R : Type} [DecidableEq R] {s s' s'' : BatchConstructor R} {r : R} {i : ℕ} {cfg : BatchConfig}
  {E : BatchError R → BatchConstructor R → Prop} {pl : Place} {B : List R}

/-- The request is gone, all others are where they were. One that had reached no replica keeps its claim. -/
structure Drops (s s' : BatchConstructor R) (r : R) : Prop where
  gone : s'.Absent r
  frame : ∀ r' t, r' ≠ r → (s'.Has r' t ↔ s.Has r' t)
  claimed : ∀ r', r' ≠ r → s'.claimed r' = s.claimed r'
  failed : s'.grammarFailed = s.grammarFailed
  batches : ∀ i, s'.Has r (.batch i) → s.Has r (.batch i)
  released : s'.claimed r = false ∨
    (s.At r .grammarPending ∨ s.At r .cePending) ∧ s'.claimed r = s.claimed r

theorem Moves.drops (hm : Moves s s' r .unbound) (hat : s.At r .grammarPending ∨ s.At r .cePending)
    (hclaim : s'.claimed r = s.claimed r) : Drops s s' r where
  gone t ht := by simpa [tags] using (hm.located t).mp ht
  frame := hm.frame
  claimed := hm.claimed
  failed := hm.failed
  batches i hi := by simpa [tags] using (hm.located (.batch i)).mp hi
  released := .inr ⟨hat, hclaim⟩

theorem leaveQueues_moves (hat : s.At r pl) (hpl : pl ∈ [.inHand i, .ce i, .tg i,
      .deferredLora i, .inFlight i false, .inFlight i true]) :
    ∃ s' pl', leaveQueues r i s = .ok () s' ∧ Moves s s' r pl' ∧
      (pl' = .inHand i ∨ pl' = .inFlight i false ∧ Tag.batch i ∈ pl.tags) := by
  have hce : r ∈ (s.replicas i).ceReqs ↔ Tag.ce i ∈ pl.tags := hat (.ce i)
  have htg : r ∈ (s.replicas i).tgReqs ↔ Tag.tg i ∈ pl.tags := hat (.tg i)
  have hlora : r ∈ (s.replicas i).deferredLoraRequests ↔ Tag.deferredLora i ∈ pl.tags := hat (.deferredLora i)
  have hleave : leaveQueues r i s = .ok () (if r ∈ (s.replicas i).ceReqs then
      s.setCe i ((s.replicas i).ceReqs.erase r)
    else if r ∈ (s.replicas i).tgReqs then s.setTg i ((s.replicas i).tgReqs.erase r)
    else if r ∈ (s.replicas i).deferredLoraRequests then
      s.setDeferred i ((s.replicas i).deferredLoraRequests.erase r)
    else s) := rfl
  have hstay : Moves s s r pl := Moves.refl hat (fun _ _ => Iff.rfl) rfl rfl rfl
  simp only [mem_cons, not_mem_nil, or_false] at hpl
  rcases hpl with rfl | rfl | rfl | rfl | rfl | rfl <;>
    simp only [tags, mem_cons, not_mem_nil, reduceCtorEq, or_false, or_true, iff_true, iff_false] at hce htg hlora <;>
    rw [hleave] <;> simp only [hce, htg, hlora, if_true, if_false]
  · exact ⟨_, _, rfl, hstay, .inl rfl⟩
  · exact ⟨_, _, rfl, moves_popCe hat (.inr rfl), .inl rfl⟩
  · exact ⟨_, _, rfl, moves_dropTg hat (.inr rfl), .inl rfl⟩
  · exact ⟨_, _, rfl, moves_undefer hat, .inl rfl⟩
  · exact ⟨_, _, rfl, hstay, .inr ⟨rfl, by simp [tags]⟩⟩
  · exact ⟨_, _, rfl, moves_unlistTg hat, .inr ⟨rfl, by simp [tags]⟩⟩

theorem has_setBound {o : Option ℕ} {r' : R} {t : Tag} (ht : ∀ j, t ≠ .bound j) :
    (s.setBound r o).Has r' t ↔ s.Has r' t := by
  cases t with
  | bound j => exact absurd rfl (ht j)
  | _ => rfl

theorem absent_of_unbind (hat : s.At r pl) (hpl : pl = .inHand i ∨ pl = .inFlight i false) :
    (s.setBound r none).Absent r := by
  intro t ht
  have hnotBound : ∀ j, t ≠ .bound j := by
    rintro j rfl
    simp [Has, setBound] at ht
  have hmem := (hat t).mp ((has_setBound hnotBound).mp ht)
  rcases hpl with rfl | rfl <;> simp only [tags, mem_cons, not_mem_nil, or_false] at hmem
  · exact absurd hmem (hnotBound i)
  · exact ⟨i, hmem.resolve_right (hnotBound i)⟩

theorem moves_forgetOnload (hat : s.At r pl) (hpl : ∀ j, Tag.onloading j ∉ pl.tags) :
    Moves s { s.setArrival r false with onloadingReqs := s.onloadingReqs.erase r } r pl := by
  have hnone : ∀ j, s.onloadingReqs.get? r ≠ some j := fun j hj => hpl j ((hat (.onloading j)).mp hj)
  refine Moves.refl hat (fun r' t => ?_) rfl rfl rfl
  cases t with
  | onloading j =>
    by_cases hr' : r' = r
    · subst hr'
      simp [Has, Dict.get?_erase_self, hnone j]
    · simp [Has, Dict.get?_erase_of_ne hr']
  | _ => rfl

/-- The first step of the release, on a request that is bound: one that is onloading is now in hand. -/
theorem unload_moves (hat : s.At r pl) (hpl : pl ∈ [.ce i, .tg i, .deferredLora i,
      .onloading i, .inFlight i false, .inFlight i true]) :
    ∃ pl' : Place, pl' ∈ [.inHand i, .ce i, .tg i, .deferredLora i, .inFlight i false, .inFlight i true] ∧
      (pl' = pl ∨ pl' = .inHand i) ∧
      Moves s { s.setArrival r false with onloadingReqs := s.onloadingReqs.erase r } r pl' := by
  rcases eq_or_ne pl (.onloading i) with rfl | hon
  · have hoff := moves_onloaded hat
    exact ⟨.inHand i, by simp, .inr rfl, hoff.trans
      (Moves.refl hoff.located (fun r' t => by cases t <;> rfl) rfl rfl rfl)⟩
  · refine ⟨pl, ?_, .inl rfl, moves_forgetOnload hat fun j => ?_⟩ <;>
      simp only [mem_cons, not_mem_nil, or_false] at hpl <;>
      rcases hpl with rfl | rfl | rfl | rfl | rfl | rfl <;> simp_all [tags]

theorem releaseBound_ends (hat : s.At r pl) (hpl : pl ∈ [.ce i, .tg i, .deferredLora i,
      .onloading i, .inFlight i false, .inFlight i true]) : Ends (releaseBound r s) (fun _ s' => Drops s s' r) E := by
  rw [releaseBound, bind_modify, bind_get]
  obtain ⟨pl1, hpl1, hfrom, h1⟩ := unload_moves hat hpl
  have hbd : (({ s.setArrival r false with onloadingReqs := s.onloadingReqs.erase r } :
      BatchConstructor R)).boundRequests r = some i := by
    refine (h1.located (.bound i)).mpr ?_
    simp only [mem_cons, not_mem_nil, or_false] at hpl1
    rcases hpl1 with rfl | rfl | rfl | rfl | rfl | rfl <;> simp [tags]
  rw [hbd]
  obtain ⟨s2, pl2, hleave, h2, hpl2⟩ := leaveQueues_moves h1.located hpl1
  dsimp only
  rw [bind_of_ok hleave]
  refine (kvReleaseIfClaimed_ends h2.located).bind fun _ s3 hs3 => ?_
  obtain ⟨h3, hfree⟩ := hs3
  have hm3 := (h1.trans h2).trans h3
  refine ⟨absent_of_unbind h3.located (hpl2.imp_right And.left), fun r' t hr' => ?_, hm3.claimed,
    hm3.failed, fun j hj => ?_, .inl hfree⟩
  · refine Iff.trans ?_ (hm3.frame r' t hr')
    cases t <;> simp [Has, setBound, hr']
  · have hmem : Tag.batch j ∈ pl2.tags := (h3.located _).mp ((has_setBound (by simp)).mp hj)
    rcases hpl2 with rfl | ⟨rfl, hbatch⟩
    · simp [tags] at hmem
    · obtain rfl : j = i := by simpa [tags] using hmem
      rcases hfrom with rfl | rfl
      · exact (hat _).mpr hbatch
      · simp [tags] at hbatch

theorem releaseRequest_ends (h : s.Placed) (hc : s.contains r = true) :
    Ends (releaseRequest r s) (fun _ s' => Drops s s' r) E := by
  obtain ⟨pl, hs, hat⟩ := h.at_of_contains hc
  have hgrammar : (s.grammarPending.get? r).isSome ↔ Tag.grammarPending ∈ pl.tags := hat .grammarPending
  have hpool : r ∈ s.cePending ↔ Tag.cePending ∈ pl.tags := hat .cePending
  rw [releaseRequest, bind_get, if_neg (by simp [hc])]
  split_ifs with hg hp
  · have hat' := h.at_grammarPending hg
    exact (moves_grammarBuilt hat').drops (.inl hat') rfl
  · have hat' := h.at_cePending hp
    have hout := moves_unpool hat'
    have harrive : Moves { s with cePending := s.cePending.erase r }
        ({ s with cePending := s.cePending.erase r }.setArrival r false) r .unbound :=
      Moves.refl hout.located (fun r' t => by cases t <;> rfl) rfl rfl rfl
    exact (hout.trans harrive).drops (.inr hat') rfl
  · rw [hgrammar] at hg
    rw [hpool] at hp
    cases pl with
    | grammarPending | cePending => simp [tags] at hg hp
    | ce i | tg i | deferredLora i | onloading i => exact releaseBound_ends (i := i) hat (by simp)
    | inFlight i decoding => exact releaseBound_ends (i := i) hat (by cases decoding <;> simp)
    | inHand i | unbound | backToCe i => exact hs.elim

theorem Drops.placed (hd : Drops s s' r) (h : s.Placed) : s'.Placed := by
  intro r'
  by_cases hr' : r' = r
  · subst hr'
    exact .inr hd.gone
  · exact placed_congr (hd.frame r' · hr') (h r')

theorem Drops.contains (hd : Drops s s' r) (r' : R) : s'.contains r' = true ↔ s.contains r' = true ∧ r' ≠ r := by
  by_cases hr' : r' = r
  · subst hr'
    simp [hd.gone.contains]
  · simp [hr', contains_congr fun t => hd.frame r' t hr']

/-- The requests outside the batch `B` of replica `i` are where they were. -/
def Apart (i : ℕ) (B : List R) (s s' : BatchConstructor R) : Prop :=
  Keeps {i} [] s s' ∧ ∀ r, r ∉ B → ∀ t, s'.Has r t ↔ s.Has r t

theorem Apart.refl : Apart i B s s := ⟨Keeps.refl, fun _ _ _ => Iff.rfl⟩

theorem Moves.apart {pl' : Place} (hm : Moves s s' r pl') (hat : s.At r pl) (hne : pl ≠ .unbound) (hne' : pl' ≠ .unbound)
    (hnear : Near {i} pl) (hnear' : Near {i} pl') : Apart i [r] s s' :=
  ⟨hm.keeps hat hne hne' hnear hnear', fun r' hr' t => hm.frame r' t (by simpa using hr')⟩

theorem Apart.cons (h : Apart i [r] s s') (h' : Apart i B s' s'') : Apart i (r :: B) s s'' := by
  refine ⟨h.1.trans h'.1, fun r' hr' t => ?_⟩
  rw [mem_cons, not_or] at hr'
  exact (h'.2 r' hr'.2 t).trans (h.2 r' (by simpa using hr'.1) t)

theorem Apart.has_eq (h : Apart i B s s') (hr : r ∉ B) : s'.Has r = s.Has r := funext fun t => propext (h.2 r hr t)

/-- A pass over the batch takes every request from `P` to `Q`, if its turn does and both say where the request is. -/
theorem pass_ends {f : R → BatchEff R Unit} {P Q : BatchConstructor R → R → Prop}
    (hP : ∀ {s s' r}, s'.Has r = s.Has r → P s r → P s' r) (hQ : ∀ {s s' r}, s'.Has r = s.Has r → Q s r → Q s' r)
    (hturn : ∀ {s r}, P s r → Ends (f r s) (fun _ s' => Apart i [r] s s' ∧ Q s' r) E) :
    ∀ {B : List R} {s : BatchConstructor R}, B.Nodup → (∀ r ∈ B, P s r) →
      Ends ((B.forM f) s) (fun _ s' => Apart i B s s' ∧ ∀ r ∈ B, Q s' r) E
  | [], _, _, _ => ⟨.refl, by simp⟩
  | r :: B, s, hnd, hB => by
    obtain ⟨hnot, hnd⟩ := nodup_cons.mp hnd
    obtain ⟨hr, hB⟩ := forall_mem_cons.mp hB
    refine (hturn hr).bind fun _ s1 ⟨h1, hq⟩ => ?_
    have hrest : ∀ r' ∈ B, P s1 r' := fun r' hr' =>
      hP (h1.has_eq (by simpa using ne_of_mem_of_not_mem hr' hnot)) (hB r' hr')
    refine (pass_ends hP hQ hturn hnd hrest).imp ?_
    rintro _ s2 ⟨h2, hrest⟩
    exact ⟨h1.cons h2, forall_mem_cons.mpr ⟨hQ (h2.has_eq hnot) hq, hrest⟩⟩

theorem near_inFlight {decoding : Bool} : Near {i} (.inFlight i decoding) := by
  cases decoding <;> simp [Near, tags]

theorem advanceToTg_pass (hnd : B.Nodup) (hB : ∀ r ∈ B, (∃ d, s.At r (.inFlight i d)) ∨ s.Absent r) :
    Ends ((B.forM (advanceToTg i)) s)
      (fun _ s' => Apart i B s s' ∧ ∀ r ∈ B, s'.At r (.inFlight i true) ∨ s'.Absent r) E := by
  refine pass_ends (P := fun s r => (∃ d, s.At r (.inFlight i d)) ∨ s.Absent r)
    (Q := fun s r => s.At r (.inFlight i true) ∨ s.Absent r) ?_ ?_ ?_ hnd hB
  · exact fun h hp => by simpa only [At, Absent, h] using hp
  · exact fun h hp => by simpa only [At, Absent, h] using hp
  · intro s r hp
    rw [advanceToTg, bind_get]
    rcases hp with ⟨d, hat⟩ | hgone
    · have hm := moves_listTg hat
      rw [if_pos (hat.contains (by simp))]
      exact ⟨hm.apart hat (by simp) (by simp) near_inFlight near_inFlight, .inl hm.located⟩
    · rw [if_neg (by simp [hgone.contains])]
      exact ⟨.refl, .inr hgone⟩

theorem advanceBackToCe_pass (hnd : B.Nodup) (hB : ∀ r ∈ B, s.At r (.inFlight i true) ∨ s.Absent r) :
    Ends ((B.forM (advanceBackToCe i)) s) (fun _ s' => Apart i B s s' ∧
        ∀ r ∈ B, s'.At r (.inFlight i true) ∨ s'.At r (.backToCe i) ∨ s'.Absent r) E := by
  refine pass_ends (P := fun s r => s.At r (.inFlight i true) ∨ s.Absent r)
    (Q := fun s r => s.At r (.inFlight i true) ∨ s.At r (.backToCe i) ∨ s.Absent r) ?_ ?_ ?_ hnd hB
  · exact fun h hp => by simpa only [At, Absent, h] using hp
  · exact fun h hp => by simpa only [At, Absent, h] using hp
  · intro s r hp
    rw [advanceBackToCe, bind_get]
    split_ifs with hback
    · have hat := hp.resolve_right fun hgone => by simp [hgone.contains] at hback
      have hunlist := moves_unlistTg hat
      have hm := hunlist.trans (moves_backToCe hunlist.located)
      exact ⟨hm.apart hat (by simp) (by simp) near_inFlight (by simp [Near, tags]), .inr (.inl hm.located)⟩
    · exact ⟨.refl, hp.imp_right .inr⟩

theorem has_setBatch {q : Queue R} {t : Tag} (ht : t ≠ .batch i) : (s.setBatch i q).Has r t ↔ s.Has r t := by
  cases t with
  | batch j =>
    have hj : j ≠ i := by rintro rfl; exact ht rfl
    simp [Has, setBatch, hj]
  | _ => rfl

theorem not_has_emptied : ¬(s.setBatch i .empty).Has r (.batch i) := by simp [Has, setBatch]

theorem At.emptied {pl' : Place} (hat : s.At r pl)
    (htags : ∀ t, t ∈ pl'.tags ↔ t ≠ .batch i ∧ t ∈ pl.tags) : (s.setBatch i .empty).At r pl' := by
  intro t
  rw [htags]
  by_cases ht : t = .batch i
  · subst ht
    simp [not_has_emptied]
  · rw [has_setBatch ht, hat]
    simp [ht]

theorem Absent.emptied (h : s.Absent r) : (s.setBatch i .empty).Absent r := by
  intro t ht
  by_cases hbatch : t = .batch i
  · exact ⟨i, hbatch⟩
  · exact h t ((has_setBatch hbatch).mp ht)

theorem advanceReplica_ends (h : s.Placed) :
    Ends (advanceReplica i s) (fun _ s' => Kept i s s' ∧ ∀ r, r ∉ s'.batches i) E := by
  rw [advanceReplica, bind_get]
  have hmem : ∀ r, r ∈ (s.batches i).keys ↔ r ∈ s.batches i := fun r => Queue.mem_keys
  refine (advanceToTg_pass (s.batches i).nodup
    fun r hr => h.at_batch ((hmem r).mp hr)).bind fun _ s1 ⟨h1, hB1⟩ => ?_
  refine (advanceBackToCe_pass (nodup_reverse.mpr (s.batches i).nodup)
    fun r hr => hB1 r (mem_reverse.mp hr)).bind fun _ s2 ⟨h2, hB2⟩ => ?_
  have hother : ∀ r, r ∉ (s.batches i).keys → ∀ t, s2.Has r t ↔ s.Has r t := fun r hr t =>
    (h2.2 r (by simpa using hr) t).trans (h1.2 r hr t)
  have hk : Keeps {i} [] s s2 := by simpa using h1.1.trans h2.1
  refine ⟨⟨fun r => ?_, ?_⟩, fun r => not_has_emptied⟩
  · by_cases hr : r ∈ (s.batches i).keys
    · rcases hB2 r (mem_reverse.mpr hr) with hat | hat | hgone
      · refine .inl ⟨.tg i, trivial, hat.emptied fun t => ?_⟩
        rcases eq_or_ne t (.batch i) with rfl | ht <;> simp_all [tags]
      · refine .inl ⟨.ce i, trivial, hat.emptied fun t => ?_⟩
        rcases eq_or_ne t (.batch i) with rfl | ht <;> simp_all [tags]
      · exact .inr hgone.emptied
    · have hnot : ¬s.Has r (.batch i) := fun hb => hr ((hmem r).mpr hb)
      rcases h r with ⟨pl, hs, hat⟩ | hgone
      · have hat2 : s2.At r pl := fun t => (hother r hr t).trans (hat t)
        refine .inl ⟨pl, hs, hat2.emptied fun t => ?_⟩
        refine ⟨fun ht => ⟨?_, ht⟩, And.right⟩
        rintro rfl
        exact hnot ((hat _).mpr ht)
      · refine .inr (Absent.emptied fun t ht => hgone t ((hother r hr t).mp ht))
  · have hcontains : ∀ r, (s2.setBatch i .empty).contains r = s2.contains r := fun r => rfl
    refine ⟨fun r => by rw [hcontains, hk.contains], hk.failed, hk.claimed, fun r hr t ht => ?_,
      fun j hj r => ?_, hk.releases⟩
    · rcases eq_or_ne t (.batch i) with rfl | hbatch
      · exact absurd ht not_has_emptied
      · exact hk.untouched r hr t ((has_setBatch hbatch).mp ht)
    · rw [has_setBatch (fun heq => hj (by cases heq; rfl))]
      exact hk.batches j hj r

theorem advanceRequests_ends (h : s.Placed) : Ends (advanceRequests cfg s)
      (fun _ s' => (s'.Placed ∧ Keeps {i | i < cfg.numReplicas} [] s s') ∧
        ∀ i < cfg.numReplicas, ∀ r, r ∉ s'.batches i) E := by
  rw [advanceRequests]
  refine imp (forM (I := fun rest s' =>
      (s'.Placed ∧ Keeps {i | i < cfg.numReplicas} [] s s') ∧ (∀ i ∈ rest, i < cfg.numReplicas) ∧
        ∀ i < cfg.numReplicas, i ∉ rest → ∀ r, r ∉ s'.batches i) ?_ _ s
      ⟨⟨h, Keeps.refl⟩, fun i hi => mem_range.mp hi, fun i hi hrest => absurd (mem_range.mpr hi) hrest⟩)
    (fun _ _ h' => ⟨h'.1, fun i hi => h'.2.2 i hi (by simp)⟩)
  rintro i rest s1 ⟨⟨hp1, hk1⟩, hlt, hdone⟩
  refine (advanceReplica_ends hp1).imp ?_
  rintro _ s2 ⟨⟨hp2, hk2⟩, hempty⟩
  have hi := hlt i (by simp)
  refine ⟨⟨hp2, by simpa using hk1.trans (hk2.mono (by simpa using hi))⟩,
    (forall_mem_cons.mp hlt).2, fun j hj hrest r hr => ?_⟩
  rcases eq_or_ne j i with rfl | hji
  · exact hempty r hr
  · exact hdone j hj (by simp [hji, hrest]) r ((hk2.batches j (by simpa using hji) r).mp hr)

end MojoProse.Scheduler.BatchConstructor
