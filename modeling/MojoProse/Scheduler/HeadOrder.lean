import MojoProse.Scheduler.BatchConstructor

/-! The order of the requests that one call returns to the head of a CE queue. Each insertion at the front goes before
    the earlier ones: a loop over the requests leaves them in reverse, and only `advance_requests` runs it backwards. -/

namespace MojoProse.Scheduler.BatchConstructor
open Schemes List

variable {R : Type} [DecidableEq R]

/-- The call leaves the returned requests in their order, and behind them the others in theirs. -/
def ReturnsInOrder (call : BatchEff R Unit) (s : BatchConstructor R) (i : ℕ) (returned : List R) : Prop :=
  ∃ s', call s = .ok ⟨⟩ s' ∧
    (s'.replicas i).ceReqs.keys = returned ++ (s.replicas i).ceReqs.keys.filter (· ∉ returned)

section
variable (s : BatchConstructor R) (i : ℕ)

/-- The call returns with `l` put at the front of the queue one after the other. -/
abbrev Fronts (call : BatchEff R Unit) (l : List R) : Prop := Ends (call s)
  (fun _ s' => (s'.replicas i).ceReqs = l.foldl Queue.toFront (s.replicas i).ceReqs) fun _ _ => False

def completedOnloads (env : StepEnv R) : List R :=
  ((s.onloadingReqs.entries.filter fun e => env.onloadComplete e.1).filter fun e => e.2 = i).map Prod.fst

def unfinishedPrefills : List R := (s.batches i).keys.filter fun r => s.contains r ∧ s.generatedLength r = 0

def ceAfter : Queue R := (s.unfinishedPrefills i).reverse.foldl Queue.toFront (s.replicas i).ceReqs

end

variable {s : BatchConstructor R} {i : ℕ}

omit [DecidableEq R] in
theorem reverse_eq_self_iff {l : List R} (h : l.Nodup) : l.reverse = l ↔ l.length ≤ 1 := by
  rcases l with _ | ⟨a, _ | ⟨b, l⟩⟩
  · simp
  · simp
  refine iff_of_false (fun heq => (nodup_cons.mp h).1 ?_) (by simp)
  have hlast := congrArg getLast? heq
  rw [getLast?_reverse, head?_cons, getLast?_cons_cons] at hlast
  exact mem_of_getLast? hlast.symm

theorem returnsInOrder_iff {call : BatchEff R Unit} {l returned : List R} (hl : l.Nodup)
    (hmem : ∀ r, r ∈ l ↔ r ∈ returned) (h : s.Fronts i call l) :
    ReturnsInOrder call s i returned ↔ l.reverse = returned := by
  obtain ⟨_, s', hok, hce⟩ := h.ok
  simp [ReturnsInOrder, hok, hce, Queue.foldl_toFront l _ hl, hmem]

theorem updateDeferredLoraRequests_front :
    s.Fronts i (updateDeferredLoraRequests i) (s.replicas i).deferredLoraRequests.keys := by
  rw [Fronts, updateDeferredLoraRequests, bind_get]
  refine (Ends.forM_view (I := fun _ => True) (v := fun s => (s.replicas i).ceReqs) (fun r s1 _ => ?_) _ trivial).imp
    fun _ _ h => h.2
  rw [bind_modify]
  exact ⟨trivial, by simp [setCe, setDeferred, setReplica]⟩

theorem readmitCompletedOnloads_front (env : StepEnv R) :
    s.Fronts i (readmitCompletedOnloads env) (s.completedOnloads i env) := by
  rw [Fronts, readmitCompletedOnloads, bind_get, completedOnloads, foldl_map, foldl_filter]
  refine (Ends.forM_view (I := fun _ => True) (v := fun s => (s.replicas i).ceReqs) ?_ _ trivial).imp fun _ _ h => h.2
  rintro ⟨r, j⟩ s1 -
  refine ⟨trivial, ?_⟩
  rcases eq_or_ne j i with rfl | hne
  · simp [setCe, setReplica]
  · simp [setCe, setReplica, hne, hne.symm]

omit [DecidableEq R] in
theorem ceReqs_setTg (j : ℕ) (q : Queue R) : ((s.setTg j q).replicas i).ceReqs = (s.replicas i).ceReqs := by
  rcases eq_or_ne i j with rfl | hne
  · simp [setTg, setReplica]
  · simp [setTg, setReplica, hne]

/-- What a turn of `advance_requests` leaves of what the next turns read. -/
theorem advanceReplica_front (j : ℕ) : Ends (advanceReplica j s) (fun _ s' => s'.contains = s.contains ∧
    s'.generatedLength = s.generatedLength ∧ s'.batches = Function.update s.batches j .empty ∧
    (s'.replicas i).ceReqs = if j = i then s.ceAfter i else (s.replicas i).ceReqs) fun _ _ => False := by
  let I (s' : BatchConstructor R) : Prop :=
    s'.contains = s.contains ∧ s'.generatedLength = s.generatedLength ∧ s'.batches = s.batches
  let ce (s' : BatchConstructor R) : Queue R := (s'.replicas i).ceReqs
  have htg : Ends (((s.batches j).keys.forM (advanceToTg j)) s) (fun _ s' => I s' ∧ ce s' = ce s) fun _ _ => False := by
    refine Ends.forM (I := fun _ s' => I s' ∧ ce s' = ce s) (fun r _ s1 h1 => ?_) _ s ⟨⟨rfl, rfl, rfl⟩, rfl⟩
    rw [advanceToTg, bind_get]
    split_ifs
    · exact ⟨h1.1, (ceReqs_setTg ..).trans h1.2⟩
    · exact h1
  rw [advanceReplica, bind_get]
  refine htg.bind fun _ s1 ⟨h1, hce1⟩ => ?_
  refine (Ends.forM_view (v := ce) (I := I) (g := fun q r =>
    if s.contains r ∧ s.generatedLength r = 0 then if j = i then q.toFront r else q else q) (fun r s2 h2 => ?_) _ h1).bind
    fun _ s2 ⟨h2, hce2⟩ => ⟨h2.1, h2.2.1, by rw [← h2.2.2]; rfl, ?_⟩
  · rw [advanceBackToCe, bind_get, h2.1, h2.2.1]
    split_ifs with hr hj
    · exact ⟨h2, by simp [ce, setCe, setTg, setReplica, hj]⟩
    · exact ⟨h2, by simp [ce, setCe, setTg, setReplica, Ne.symm hj]⟩
    · exact ⟨h2, rfl⟩
  · refine hce2.trans ?_
    rw [hce1]
    split_ifs with hj
    · subst hj
      rw [ceAfter, unfinishedPrefills, ← filter_reverse, foldl_filter]
      simp [ce]
    · simp [ce]

theorem advanceRequests_front (cfg : BatchConfig) (hi : i < cfg.numReplicas) :
    s.Fronts i (advanceRequests cfg) (s.unfinishedPrefills i).reverse := by
  refine Ends.forM (I := fun rest s' => (if i ∈ rest then s'.ceAfter i else (s'.replicas i).ceReqs) = s.ceAfter i) ?_
    (range cfg.numReplicas) s (by rw [if_pos (mem_range.mpr hi)])
  intro j rest s1 h1
  refine (advanceReplica_front (i := i) j).imp fun _ s2 ⟨hc, hg, hb, hce⟩ => ?_
  rcases eq_or_ne j i with rfl | hne
  · have hempty : s2.ceAfter j = (s2.replicas j).ceReqs := by
      simp [ceAfter, unfinishedPrefills, hb, Queue.empty]
    rw [hempty, ite_self, hce, if_pos rfl, ← h1, if_pos mem_cons_self]
  · have hsame : s2.ceAfter i = s1.ceAfter i := by
      simp [ceAfter, unfinishedPrefills, hb, hc, hg, hce, hne, hne.symm]
    rw [← h1, hsame, hce, if_neg hne]
    simp [hne.symm]

/-- The three calls return requests in order exactly when the first two return at most one to the replica. -/
theorem returnsInOrder_all_iff (cfg : BatchConfig) (env : StepEnv R) (s : BatchConstructor R) (i : Fin cfg.numReplicas) :
    (ReturnsInOrder (updateDeferredLoraRequests i) s i (s.replicas i).deferredLoraRequests.keys ∧
      ReturnsInOrder (readmitCompletedOnloads env) s i (s.completedOnloads i env) ∧
      ReturnsInOrder (advanceRequests cfg) s i (s.unfinishedPrefills i)) ↔
    (s.replicas i).deferredLoraRequests.keys.length ≤ 1 ∧ (s.completedOnloads i env).length ≤ 1 := by
  have hdeferred := (s.replicas i).deferredLoraRequests.nodup
  have hcompleted : (s.completedOnloads i env).Nodup :=
    s.onloadingReqs.nodup.sublist ((filter_sublist.trans filter_sublist).map _)
  have hbatch : (s.unfinishedPrefills i).Nodup := (s.batches i).nodup.filter _
  rw [returnsInOrder_iff hdeferred (fun _ => Iff.rfl) updateDeferredLoraRequests_front, reverse_eq_self_iff hdeferred,
    returnsInOrder_iff hcompleted (fun _ => Iff.rfl) (readmitCompletedOnloads_front env),
    reverse_eq_self_iff hcompleted, returnsInOrder_iff (nodup_reverse.mpr hbatch) (fun _ => mem_reverse)
      (advanceRequests_front cfg i.2)]
  simp

/-- Two deferred requests come back in reverse. -/
theorem deferred_reversed : ¬ ReturnsInOrder (updateDeferredLoraRequests 0)
    (new.setDeferred 0 ⟨[1, 2], by decide⟩) 0 [1, 2] := by
  rintro ⟨s', hok, hkeys⟩
  cases hok
  revert hkeys
  decide

end MojoProse.Scheduler.BatchConstructor
