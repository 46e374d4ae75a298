import MojoProse.Scheduler.BatchMoves

/-! `construct_batch` keeps every request. The loops over a replica's queues pop a request, or walk over candidates, and
    each turn lands the request it took at a place; so nobody is lost on any of the early returns. -/

namespace MojoProse.Scheduler.BatchConstructor
open Schemes Place List Ends

theorem notMem_of_isEmpty {q : Queue R} (h : q.keys.isEmpty = true) (r : R) : r ∉ q := by
  rw [← Queue.mem_keys, isEmpty_iff.mp h]
  exact not_mem_nil

theorem nodup_filter_keys {V : Type} (d : Dict R V) (p : R × V → Bool) : ((d.entries.filter p).map Prod.fst).Nodup :=
  d.nodup.sublist (filter_sublist.map Prod.fst)

variable {R : Type} [DecidableEq R] {s s' s'' : BatchConstructor R} {r : R} {i : ℕ}
  {I : Set ℕ} {cfg : BatchConfig} {env : StepEnv R}

theorem addToBatch_ends (hat : s.At r (.inHand i)) : Ends (addToBatch i r s) (fun _ s' => Lands {i} s s' r) Fatal :=
  ⟨.inFlight i false, trivial, by simp [Near, tags], moves_seat hat⟩

theorem seatCe_ends (hat : s.At r (.inHand i)) : Ends (seatCe cfg env i r s) (fun _ s' => Lands {i} s s' r) Fatal := by
  rw [seatCe, bind_get]
  cases env.status s i .CE r with
  | exhausted => exact (returnToRequestQueue_ends hat (.inl rfl)).bind fun _ _ h => h
  | reached | available => exact (addToBatch_ends hat).bind fun _ _ h => h

theorem allocCe_ends (hat : s.At r (.inHand i)) :
    Ends (allocCe cfg env i r s) (fun _ s' => Lands {i} s s' r) Fatal := by
  rw [allocCe, bind_get]
  cases env.alloc s r with
  | insufficient =>
    dsimp only
    split_ifs with hfatal
    · exact ⟨r, i, rfl⟩
    · exact (returnToRequestQueue_ends hat (.inl rfl)).bind fun _ _ h => h
  | onloading => exact ⟨.onloading i, trivial, by simp [Near, tags], moves_onload hat⟩
  | ready => exact seatCe_ends hat

theorem claimUnlessClaimed_ends {pl : Place} (hat : s.At r pl) :
    Ends (claimUnlessClaimed r s) (fun _ s' => Moves s s' r pl) Fatal := by
  rw [claimUnlessClaimed, bind_get]
  split_ifs with hc
  · rw [kvClaim, bind_get, if_neg (by simp [hc])]
    exact moves_claim hat
  · exact Moves.refl hat (fun _ _ => Iff.rfl) rfl rfl rfl

theorem ceTurn_ends (hat : s.At r (.inHand i)) : Ends (ceTurn cfg env i r s) (fun _ s' => Lands {i} s s' r) Fatal := by
  rw [ceTurn, bind_get]
  split_ifs with hlora hbud
  · exact ⟨.deferredLora i, trivial, by simp [Near, tags], moves_defer hat⟩
  · exact (returnToRequestQueue_ends hat (.inl rfl)).bind fun _ _ h => h
  · refine (claimUnlessClaimed_ends hat).bind fun _ s1 h1 => ?_
    exact (allocCe_ends h1.located).imp fun _ _ => h1.lands

theorem addCeLoop_ends (start : ℕ) : ∀ (n : ℕ) {s : BatchConstructor R}, s.Placed →
    Ends (addCeLoop cfg env i start n s) (fun _ s' => Kept i s s') Fatal
  | 0, _, h => .refl h
  | n + 1, s, h => by
    rw [addCeLoop, bind_get]
    cases hkeys : (s.replicas i).ceReqs.keys with
    | nil => exact .refl h
    | cons r rest =>
      dsimp only
      split_ifs with hroom
      · have hat : s.At r (.ce i) := h.at_ce (Queue.mem_keys.mp (by simp [hkeys]))
        have hpop := moves_popCe hat (.inr rfl)
        rw [bind_modify]
        refine (ceTurn_ends hpop.located).bind fun turn s1 h1 => ?_
        have hland := hpop.lands h1
        have hkept : Kept i s s1 := ⟨hland.placed (h.but r), hland.keeps hat (by simp) near_ce⟩
        cases turn with
        | goesOn => exact (addCeLoop_ends start n hkept.1).imp (fun _ _ h' => hkept.trans h')
        | breaks | returns => exact hkept
      · exact .refl h

theorem updateDeferredLoraRequests_ends (h : s.Placed) :
    Ends (updateDeferredLoraRequests i s) (fun _ s' => Kept i s s') Fatal := by
  rw [updateDeferredLoraRequests, bind_get]
  refine imp (forM (I := fun rest s' => Kept i s s' ∧ rest.Nodup ∧ ∀ r ∈ rest, s'.At r (.deferredLora i)) ?_ _ s
      ⟨.refl h, (s.replicas i).deferredLoraRequests.nodup, fun r hr => h.at_deferredLora hr⟩)
    (fun _ _ h' => h'.1)
  rintro r rest s1 ⟨hkept, hnd, hrest⟩
  have hat := hrest r (by simp)
  have hout := moves_undefer hat
  have hin := hout.trans (moves_toFrontCe hout.located (.inl rfl))
  refine ⟨hkept.trans ⟨hin.placed (hkept.1.but r) trivial,
    hin.keeps hat (by simp) (by simp) (by simp [Near, tags]) near_ce⟩, (nodup_cons.mp hnd).2, ?_⟩
  intro r' hr'
  exact hin.at_of_ne (fun heq => (nodup_cons.mp hnd).1 (heq ▸ hr')) (hrest r' (by simp [hr']))

theorem addCeRequests_ends (h : s.Placed) : Ends (addCeRequests cfg env i s) (fun _ s' => Kept i s s') Fatal := by
  rw [addCeRequests]
  split_ifs with hclosed
  · exact Kept.refl h
  · refine (addCeLoop_ends _ _ h).bind fun turn s1 h1 => ?_
    cases turn with
    | returns => exact h1
    | goesOn | breaks => exact (updateDeferredLoraRequests_ends h1.1).imp (fun _ _ h' => h1.trans h')

/-- While decoding candidates are held, those that are not preempted stay in their queue. -/
def KeptTg (i : ℕ) (preempted : List R) (s s' : BatchConstructor R) : Prop :=
  Kept i s s' ∧ ∀ r, r ∉ preempted → s.At r (.tg i) → s'.At r (.tg i)

theorem KeptTg.refl (h : s.Placed) : KeptTg i [] s s := ⟨.refl h, fun _ _ hat => hat⟩

theorem KeptTg.trans {l l' : List R} (h : KeptTg i l s s') (h' : KeptTg i l' s' s'') : KeptTg i (l ++ l') s s'' := by
  refine ⟨h.1.trans h'.1, fun r hr hat => ?_⟩
  rw [mem_append, not_or] at hr
  exact h'.2 r hr.2 (h.2 r hr.1 hat)

theorem Lands.keptTg {pl : Place} (hl : Lands {i} s s' r) (h : s.Placed) (hat : s.At r pl) (hne : pl ≠ .unbound)
    (hnear : Near {i} pl) : KeptTg i [r] s s' :=
  ⟨⟨hl.placed (h.but r), hl.keeps hat hne hnear⟩, fun _ hr' => hl.at_of_ne (by simpa using hr')⟩

theorem preemptRequest_ends {pl : Place} (h : s.Placed) (hat : s.At r pl) (hpl : pl = .tg i ∨ pl = .ce i) :
    Ends (preemptRequest cfg r i s) (fun _ s' => KeptTg i [r] s s') Fatal := by
  have hnear : Near {i} pl := by rcases hpl with rfl | rfl <;> simp [Near, tags]
  have hne : pl ≠ .unbound := by rcases hpl with rfl | rfl <;> simp
  rw [preemptRequest]
  exact (returnToRequestQueue_ends hat (.inr hpl)).imp fun _ _ hl => hl.keptTg h hat hne hnear

/-- A request queued with blocks is no decoding request. -/
theorem preemptCeBlockHolder_ends (h : s.Placed) :
    Ends (preemptCeBlockHolder cfg env i s) (fun _ s' => KeptTg i [] s s') Fatal := by
  rw [preemptCeBlockHolder, bind_get]
  cases hfind : (s.replicas i).ceReqs.keys.reverse.find? fun r => s.claimed r && env.holdsBlocks s r with
  | none => exact KeptTg.refl h
  | some r =>
    have hmem : r ∈ (s.replicas i).ceReqs := by
      have hr := mem_of_find?_eq_some hfind
      exact Queue.mem_keys.mp (mem_reverse.mp hr)
    have hat := h.at_ce hmem
    refine (preemptRequest_ends h hat (.inr rfl)).bind fun _ s' hk => ?_
    refine ⟨hk.1, fun r' _ hat' => hk.2 r' ?_ hat'⟩
    rintro hr'
    rw [mem_singleton] at hr'
    subst hr'
    simpa [tags] using (hat (.tg i)).symm.trans (hat' (.tg i))

theorem giveUp_ends (h : s.Placed) : Ends (giveUp env i r s) (fun _ s' => KeptTg i [] s s') Fatal := by
  rw [giveUp, bind_get]
  split_ifs with hfatal
  · exact ⟨r, i, rfl⟩
  · exact KeptTg.refl h

theorem allocPreemptingCe_ends : ∀ (n : ℕ) {s : BatchConstructor R}, s.Placed →
    Ends (allocPreemptingCe cfg env i r n s) (fun _ s' => KeptTg i [] s s') Fatal
  | 0, s, h => by
    rw [allocPreemptingCe, bind_get]
    split_ifs with hready
    · exact KeptTg.refl h
    · exact giveUp_ends h
  | n + 1, s, h => by
    rw [allocPreemptingCe, bind_get]
    split_ifs with hready
    · exact KeptTg.refl h
    · refine (preemptCeBlockHolder_ends h).bind fun found s1 h1 => ?_
      cases found with
      | true =>
        exact (allocPreemptingCe_ends n h1.1.1).imp (fun _ _ h' => h1.trans h')
      | false => exact (giveUp_ends h1.1.1).imp (fun _ _ h' => h1.trans h')

theorem allocTg_ends : ∀ (candidates : List R) {s : BatchConstructor R}, s.Placed →
    candidates.Nodup → (∀ r' ∈ candidates, s.At r' (.tg i)) →
    Ends (allocTg cfg env i r candidates s)
      (fun left s' => ∃ gone rest, candidates = gone ++ rest ∧ (∀ l, left = some l → l = rest) ∧
        KeptTg i gone s s') Fatal
  | [], s, h, _, _ => by
    rw [allocTg, bind_get]
    refine (allocPreemptingCe_ends _ h).bind fun ready s1 h1 => ?_
    cases ready with
    | true => exact ⟨[], [], rfl, fun l hl => by simpa using hl.symm, h1⟩
    | false => exact ⟨[], [], rfl, fun l hl => by simp at hl, h1⟩
  | newest :: rest, s, h, hnd, hat => by
    rw [allocTg, bind_get]
    split_ifs with hready
    · exact ⟨[], newest :: rest, rfl, fun l hl => by simpa using hl.symm, .refl h⟩
    · rw [bind_modify]
      have hat0 := hat newest (by simp)
      have hpop := moves_dropTg hat0 (.inr rfl)
      obtain ⟨hnot, hnd'⟩ := nodup_cons.mp hnd
      have hret : Ends (preemptRequest cfg newest i (s.setTg i ((s.replicas i).tgReqs.erase newest)))
          (fun _ s' => KeptTg i [newest] s s') Fatal := by
        rw [preemptRequest]
        refine (returnToRequestQueue_ends (I := {i}) hpop.located (.inl rfl)).imp fun _ _ hl => ?_
        exact (hpop.lands hl).keptTg h hat0 (by simp) near_tg
      refine hret.bind fun _ s1 h1 => ?_
      have hat1 : ∀ r' ∈ rest, s1.At r' (.tg i) := fun r' hr' =>
        h1.2 r' (by simpa using fun heq : r' = newest => hnot (heq ▸ hr')) (hat r' (by simp [hr']))
      refine (allocTg_ends rest h1.1.1 hnd' hat1).imp ?_
      rintro left s' ⟨gone, rest', hspl, hleft, hkept⟩
      exact ⟨newest :: gone, rest', by simp [hspl], hleft, h1.trans hkept⟩

theorem seatTg_kept (h : s.Placed) (hat : s.At r (.tg i)) : KeptTg i [r] s (s.setBatch i ((s.batches i).push r)) :=
  Lands.keptTg ⟨.inFlight i true, trivial, by simp [Near, tags], moves_seatTg hat⟩ h hat (by simp) near_tg

theorem addTgLoop_ends : ∀ (n : ℕ) (candidates : List R) {s : BatchConstructor R}, s.Placed →
    candidates.Nodup → (∀ r ∈ candidates, s.At r (.tg i)) →
    Ends (addTgLoop cfg env i n candidates s) (fun _ s' => Kept i s s') Fatal
  | 0, _, _, h, _, _ => by
    rw [addTgLoop]
    exact Kept.refl h
  | n + 1, [], _, h, _, _ => Kept.refl h
  | n + 1, r :: candidates, s, h, hnd, hat => by
    obtain ⟨hnot, hnd'⟩ := nodup_cons.mp hnd
    have hatr := hat r (by simp)
    have hother : ∀ r' ∈ candidates, r' ∉ [r] := by
      intro r' hr' heq
      rw [mem_singleton] at heq
      exact hnot (heq ▸ hr')
    rw [addTgLoop, bind_get]
    split
    case isFalse => exact Kept.refl h
    split
    · refine (preemptRequest_ends h hatr (.inl rfl)).bind fun _ s1 h1 => ?_
      refine (addTgLoop_ends n candidates h1.1.1 hnd' fun r' hr' => ?_).imp
        (fun _ _ h' => h1.1.trans h')
      exact h1.2 r' (hother r' hr') (hat r' (by simp [hr']))
    split
    · exact Kept.refl h
    refine (allocTg_ends candidates.reverse h (nodup_reverse.mpr hnd')
      fun r' hr' => hat r' (by simp [mem_reverse.mp hr'])).bind ?_
    rintro left s1 ⟨gone, rest, hspl, hleft, h1⟩
    cases left with
    | none => exact h1.1
    | some newestFirst =>
      obtain rfl := hleft newestFirst rfl
      have hnd1 : (gone ++ newestFirst).Nodup := hspl ▸ nodup_reverse.mpr hnd'
      have hmem : ∀ r', r' ∈ gone ++ newestFirst → r' ∈ candidates := fun r' hr' =>
        mem_reverse.mp (hspl ▸ hr')
      have hatr1 := h1.2 r (fun hr => hnot (hmem r (by simp [hr]))) hatr
      have h2 := h1.trans (seatTg_kept h1.1.1 hatr1)
      rw [addToBatch]
      dsimp only
      rw [bind_modify]
      split_ifs with hreached
      · exact h2.1
      · refine (addTgLoop_ends n newestFirst.reverse h2.1.1
          (nodup_reverse.mpr (nodup_append.mp hnd1).2.1) fun r' hr' => ?_).imp
          (fun _ _ h' => h2.1.trans h')
        rw [mem_reverse] at hr'
        have hcand := hmem r' (by simp [hr'])
        refine h2.2 r' ?_ (hat r' (by simp [hcand]))
        rw [mem_append, not_or]
        exact ⟨fun hg => (nodup_append.mp hnd1).2.2 r' hg r' hr' rfl, hother r' hcand⟩

/-- The candidates are the decoding requests of a replica whose batch is empty. -/
theorem addTgRequests_ends (h : s.Placed) (hempty : ∀ r, r ∉ s.batches i) :
    Ends (addTgRequests cfg env i s) (fun _ s' => Kept i s s') Fatal := by
  rw [addTgRequests, bind_get]
  exact addTgLoop_ends _ _ h (s.replicas i).tgReqs.nodup fun r hr => h.at_tg hr (hempty r)

theorem setBatch_empty_kept (h : s.Placed) (hempty : ∀ r, r ∉ s.batches i) : Kept i s (s.setBatch i .empty) := by
  have hhas : ∀ r t, (s.setBatch i .empty).Has r t ↔ s.Has r t := by
    intro r t
    cases t with
    | batch j =>
      by_cases hj : j = i
      · subst hj
        simpa [Has, setBatch] using hempty r
      · simp [Has, setBatch, hj]
    | _ => rfl
  exact ⟨fun r => placed_congr (hhas r) (h r), by simp [contains_congr (hhas _)], by simp [setBatch], fun _ _ => rfl,
    fun r _ t => (hhas r t).mp, fun _ _ r => hhas r _, [], by simp [setBatch], by simp⟩

theorem constructReplicaBatch_ends (override : Option RequestType) (h : s.Placed) (hempty : ∀ r, r ∉ s.batches i) :
    Ends (constructReplicaBatch cfg env override i s) (fun _ s' => Kept i s s') Fatal := by
  have h0 := setBatch_empty_kept h hempty
  have hempty0 : ∀ r, r ∉ (s.setBatch i .empty).batches i := by simp [setBatch]
  rw [constructReplicaBatch, bind_modify, bind_get]
  generalize override.orElse (fun _ => identifyPriority cfg env (s.setBatch i .empty) i) = priority
  rcases priority with _ | priority
  · exact h0
  cases priority with
  | CE =>
    refine (addCeRequests_ends h0.1).bind fun _ s1 h1 => ?_
    rw [bind_get]
    split_ifs with hfall
    · exact (addTgRequests_ends h1.1 (notMem_of_isEmpty hfall.1)).imp
        (fun _ _ h' => (h0.trans h1).trans h')
    · exact h0.trans h1
  | TG =>
    refine (addTgRequests_ends h0.1 hempty0).bind fun _ s1 h1 => ?_
    rw [bind_get]
    split_ifs with hfall
    · exact (addCeRequests_ends h1.1).imp (fun _ _ h' => (h0.trans h1).trans h')
    · exact h0.trans h1
  | MIXED | UNKNOWN => exact h0

theorem readmitCompletedOnloads_ends (h : s.Placed) :
    Ends (readmitCompletedOnloads env s) (fun _ s' => s'.Placed ∧ Keeps ∅ [] s s') Fatal := by
  rw [readmitCompletedOnloads, bind_get]
  refine imp (forM (I := fun rest s' => (s'.Placed ∧ Keeps ∅ [] s s') ∧
      (rest.map Prod.fst).Nodup ∧ ∀ e ∈ rest, s'.At e.1 (.onloading e.2)) ?_ _ s
      ⟨⟨h, Keeps.refl⟩, nodup_filter_keys _ _, ?_⟩) (fun _ _ h' => h'.1)
  · rintro ⟨r, i⟩ rest s1 ⟨⟨hplaced, hkeeps⟩, hnd, hrest⟩
    have hat := hrest (r, i) (by simp)
    have hout := moves_onloaded hat
    have hin := hout.trans (moves_toFrontCe hout.located (.inl rfl))
    obtain ⟨hnot, hnd'⟩ := nodup_cons.mp hnd
    refine ⟨⟨hin.placed (hplaced.but r) trivial,
      hkeeps.trans (hin.keeps hat (by simp) (by simp) (by simp [Near, tags]) near_ce)⟩, hnd', ?_⟩
    intro e he
    exact hin.at_of_ne (fun heq => hnot (mem_map.mpr ⟨e, he, heq⟩)) (hrest e (by simp [he]))
  · rintro ⟨r, i⟩ he
    exact h.at_onloading (Dict.get?_eq_some_iff.mpr (mem_filter.mp he).1)

theorem Lands.keeps_pending (h : Lands I s s' r) (hat : s.At r .grammarPending) : Keeps I [] s s' :=
  h.keeps hat (by simp) (by simp [Near, tags])

theorem Fails.placed (hm : Moves s s' r .unbound) (hf : Fails s' s'' r) (h : s.PlacedBut r) : s''.Placed := by
  intro r'
  by_cases hr' : r' = r
  · subst hr'
    exact .inr fun t ht => by simpa [tags] using (hm.located t).mp ((hf.has r' t).mp ht)
  · exact placed_congr (hf.has r') (hm.placedBut h r' hr')

theorem Fails.keeps (hm : Moves s s' r .unbound) (hf : Fails s' s'' r) (hat : s.At r .grammarPending) :
    Keeps I [r] s s'' where
  contains r' := by
    by_cases hr' : r' = r
    · subst hr'
      have hgone : s''.Absent r' := fun t ht => by
        simpa [tags] using (hm.located t).mp ((hf.has r' t).mp ht)
      simp [hgone.contains]
    · simp [hr', contains_congr fun t => (hf.has r' t).trans (hm.frame r' t hr')]
  failed := by rw [hf.failed, hm.failed]
  claimed r' hr' := by
    rw [hf.claimed]
    exact hm.claimed r' (hat.ne (by simp) hr')
  untouched r' hr' t ht := (hm.frame r' t (hat.ne (by simp) hr')).mp ((hf.has r' t).mp ht)
  releases := by
    obtain ⟨l, hl, hmem⟩ := hm.releases
    refine ⟨l, hf.releases.trans hl, fun r' hr' => ?_⟩
    rw [hmem r' hr']
    exact hat.contains (by simp)
  batches j _ r' := by
    rw [hf.has]
    by_cases hr' : r' = r
    · subst hr'
      rw [hm.located, hat]
      simp [tags]
    · exact hm.frame r' _ hr'

theorem promoteGrammarReadyRequests_ends (h : s.Placed) : Ends (promoteGrammarReadyRequests cfg env s)
      (fun _ s' => s'.Placed ∧ ∃ out, (∀ r ∈ out, (env.grammarError r).isSome) ∧ Keeps ∅ out s s') Fatal := by
  rw [promoteGrammarReadyRequests]
  split_ifs with hgate
  case neg => exact ⟨h, [], by simp, Keeps.refl⟩
  refine imp (forM (I := fun rest s' => (s'.Placed ∧ ∃ out,
      (∀ r ∈ out, (env.grammarError r).isSome) ∧ Keeps ∅ out s s') ∧
      (rest.map Prod.fst).Nodup ∧ ∀ e ∈ rest, s'.At e.1 .grammarPending) ?_ _ s
      ⟨⟨h, [], by simp, Keeps.refl⟩, nodup_filter_keys _ _, ?_⟩) (fun _ _ h' => h'.1)
  · rintro ⟨r, replicaIdx⟩ rest s1 ⟨⟨hplaced, out, hout, hkeeps⟩, hnd, hrest⟩
    have hat := hrest (r, replicaIdx) (by simp)
    have hbuilt := moves_grammarBuilt hat
    obtain ⟨hnot, hnd'⟩ := nodup_cons.mp hnd
    have hne : ∀ e ∈ rest, e.1 ≠ r := fun e he heq => hnot (mem_map.mpr ⟨e, he, heq⟩)
    dsimp only
    refine (admitBuilt_ends (I := ∅) hbuilt.located).imp ?_
    rintro _ s2 (hland | ⟨herror, hfails⟩)
    · have hland := hbuilt.lands hland
      refine ⟨⟨hland.placed (hplaced.but r), out, hout, ?_⟩, hnd', fun e he => ?_⟩
      · simpa using hkeeps.trans (hland.keeps_pending hat)
      · exact hland.at_of_ne (hne e he) (hrest e (by simp [he]))
    · refine ⟨⟨hfails.placed hbuilt (hplaced.but r), out ++ [r], ?_, hkeeps.trans (hfails.keeps hbuilt hat)⟩,
        hnd', fun e he => ?_⟩
      · intro r' hr'
        rcases mem_append.mp hr' with hr' | hr'
        · exact hout r' hr'
        · rw [mem_singleton.mp hr']
          exact herror
      · intro t
        rw [hfails.has]
        exact hbuilt.at_of_ne (hne e he) (hrest e (by simp [he])) t
  · rintro ⟨r, replicaIdx⟩ he
    refine h.at_grammarPending ?_
    rw [Dict.get?_eq_some_iff.mpr (mem_filter.mp he).1]
    rfl

theorem planCeStep_ends (h : s.Placed) :
    Ends (planCeStep cfg env s) (fun _ s' => s'.Placed ∧ Keeps ∅ [] s s') Fatal := by
  rw [planCeStep]
  split_ifs with hbalance
  case neg => exact ⟨h, Keeps.refl⟩
  refine forM (I := fun _ s' => s'.Placed ∧ Keeps ∅ [] s s') ?_ _ s ⟨h, Keeps.refl⟩
  rintro ⟨r, i⟩ rest s1 ⟨hplaced, hkeeps⟩
  dsimp only
  rw [bind_get]
  split_ifs with hpool
  case neg => exact ⟨hplaced, hkeeps⟩
  have hat := hplaced.at_cePending hpool
  have hout := moves_unpool hat
  refine (bindRequest_ends (I := ∅) hout.located).imp fun _ s2 hl => ?_
  have hland := hout.lands hl
  exact ⟨hland.placed (hplaced.but r), hkeeps.trans (hland.keeps hat (by simp) (by simp [Near, tags]))⟩

/-- From empty batches: every request is at a place afterwards, or was failed by the grammar gate. -/
theorem constructBatch_ends (h : s.Placed) (hempty : ∀ i < cfg.numReplicas, ∀ r, r ∉ s.batches i) :
    Ends (constructBatch cfg env s) (fun _ s' => s'.Placed ∧
        ∃ out, (∀ r ∈ out, (env.grammarError r).isSome) ∧ Keeps {i | i < cfg.numReplicas} out s s') Fatal := by
  rw [constructBatch]
  refine (readmitCompletedOnloads_ends h).bind fun _ s1 ⟨hp1, hk1⟩ => ?_
  refine (promoteGrammarReadyRequests_ends hp1).bind fun _ s2 ⟨hp2, out, hout, hk2⟩ => ?_
  refine (planCeStep_ends hp2).bind fun _ s3 ⟨hp3, hk3⟩ => ?_
  have hkeeps : Keeps ∅ out s s3 := by simpa using (hk1.trans hk2).trans hk3
  refine imp (forM (I := fun rest s' => (s'.Placed ∧ Keeps {i | i < cfg.numReplicas} out s s') ∧
      rest.Nodup ∧ ∀ i ∈ rest, i < cfg.numReplicas ∧ ∀ r, r ∉ s'.batches i) ?_ _ s3
      ⟨⟨hp3, hkeeps.mono (by simp)⟩, nodup_range, ?_⟩)
    (fun _ _ h' => ⟨h'.1.1, out, hout, h'.1.2⟩)
  · rintro i rest s4 ⟨⟨hp4, hk4⟩, hnd, hrest⟩
    obtain ⟨hnot, hnd'⟩ := nodup_cons.mp hnd
    obtain ⟨hi, hemptyi⟩ := hrest i (by simp)
    refine (constructReplicaBatch_ends _ hp4 hemptyi).imp ?_
    rintro _ s5 ⟨hp5, hk5⟩
    refine ⟨⟨hp5, ?_⟩, hnd', fun j hj => ⟨(hrest j (by simp [hj])).1, fun r hr => ?_⟩⟩
    · simpa using hk4.trans (hk5.mono (by simpa using hi))
    · have hji : j ∉ ({i} : Set ℕ) := fun heq => hnot (heq ▸ hj)
      exact (hrest j (by simp [hj])).2 r ((hk5.batches j hji r).mp hr)
  · intro i hi
    have hi' : i < cfg.numReplicas := mem_range.mp hi
    exact ⟨hi', fun r hr => hempty i hi' r ((hkeeps.batches i (by simp) r).mp hr)⟩

end MojoProse.Scheduler.BatchConstructor
