import MojoProse.Scheduler.BatchPlaces
import Mathlib.Data.Set.Basic

/-! The calls of the batch constructor as moves. A function that handles one request takes it from a
    place to a place; a loop keeps every request at a place and every membership as it was. -/

namespace MojoProse.Scheduler.BatchConstructor
open Schemes Function Place

variable {R : Type} [DecidableEq R] {s s' s'' : BatchConstructor R} {r : R} {i : ℕ} {I J : Set ℕ}
  {out out' : List R} {cfg : BatchConfig} {env : StepEnv R} {E : BatchError R → BatchConstructor R → Prop}

/-- The only exception of `construct_batch`. -/
def Fatal (e : BatchError R) (_ : BatchConstructor R) : Prop := ∃ r i, e = .insufficientBlocks r i

/-- Only the requests in `out` have left, failed by the grammar gate; only batches of replicas in `I` and claims of
    requests that were there have changed. -/
structure Keeps (I : Set ℕ) (out : List R) (s s' : BatchConstructor R) : Prop where
  contains : ∀ r, s'.contains r = true ↔ s.contains r = true ∧ r ∉ out
  failed : s'.grammarFailed.map Prod.fst = s.grammarFailed.map Prod.fst ++ out
  claimed : ∀ r, s.contains r = false → s'.claimed r = s.claimed r
  untouched : ∀ r, s.contains r = false → ∀ t, s'.Has r t → s.Has r t
  batches : ∀ i, i ∉ I → ∀ r, s'.Has r (.batch i) ↔ s.Has r (.batch i)
  releases : ∃ l, s'.releases = s.releases ++ l ∧ ∀ r ∈ l, s.contains r = true

theorem Keeps.refl : Keeps I [] s s :=
  ⟨by simp, by simp, fun _ _ => rfl, fun _ _ _ h => h, fun _ _ _ => Iff.rfl, [], by simp, by simp⟩

theorem Keeps.contains_false (h : Keeps I out s s') (hr : s.contains r = false) : s'.contains r = false := by
  rw [Bool.eq_false_iff, ne_eq, h.contains]
  simp [hr]

theorem Keeps.trans (h : Keeps I out s s') (h' : Keeps I out' s' s'') : Keeps I (out ++ out') s s'' where
  contains r := by
    rw [h'.contains, h.contains, List.mem_append]
    tauto
  failed := by rw [h'.failed, h.failed, List.append_assoc]
  claimed r hr := by
    rw [h'.claimed r (h.contains_false hr), h.claimed r hr]
  untouched r hr t ht := h.untouched r hr t (h'.untouched r (h.contains_false hr) t ht)
  batches i hi r := (h'.batches i hi r).trans (h.batches i hi r)
  releases := by
    obtain ⟨l, hl, hmem⟩ := h.releases
    obtain ⟨l', hl', hmem'⟩ := h'.releases
    refine ⟨l ++ l', by rw [hl', hl, List.append_assoc], fun r hr => ?_⟩
    rcases List.mem_append.mp hr with hr | hr
    · exact hmem r hr
    · exact ((h.contains r).mp (hmem' r hr)).1

theorem Keeps.mono (h : Keeps I out s s') (hIJ : I ⊆ J) : Keeps J out s s' :=
  { h with batches := fun i hi r => h.batches i (fun hI => hi (hIJ hI)) r }

/-- The place is in no batch of a replica outside `I`. -/
def Near (I : Set ℕ) (pl : Place) : Prop := ∀ i, i ∉ I → Tag.batch i ∉ pl.tags

theorem contains_congr (h : ∀ t, s'.Has r t ↔ s.Has r t) : s'.contains r = s.contains r := by
  rw [Bool.eq_iff_iff, contains_iff, contains_iff]
  simp [h]

variable {pl : Place}

theorem placed_congr (h : ∀ t, s'.Has r t ↔ s.Has r t) (hr : (∃ pl : Place, pl.Settled ∧ s.At r pl) ∨ s.Absent r) :
    (∃ pl : Place, pl.Settled ∧ s'.At r pl) ∨ s'.Absent r := by
  simpa only [At, Absent, h] using hr

theorem At.ne {r' : R} (hat : s.At r pl) (hne : pl ≠ .unbound) (hr' : s.contains r' = false) : r' ≠ r := by
  rintro rfl
  rw [hat.contains hne] at hr'
  cases hr'

theorem Moves.placedBut (hm : Moves s s' r pl) (h : s.PlacedBut r) : s'.PlacedBut r :=
  fun r' hr' => placed_congr (hm.frame r' · hr') (h r' hr')

theorem Moves.placed (hm : Moves s s' r pl) (h : s.PlacedBut r) (hs : pl.Settled) : s'.Placed := by
  intro r'
  by_cases hr' : r' = r
  · subst hr'
    exact .inl ⟨pl, hs, hm.located⟩
  · exact hm.placedBut h r' hr'

theorem Moves.at_of_ne {pl pl' : Place} {r' : R} (hm : Moves s s' r pl) (hr' : r' ≠ r)
    (hat : s.At r' pl') : s'.At r' pl' :=
  fun t => (hm.frame r' t hr').trans (hat t)

theorem Moves.keeps {pl pl' : Place} (hm : Moves s s' r pl') (hat : s.At r pl) (hne : pl ≠ .unbound)
    (hne' : pl' ≠ .unbound) (hnear : Near I pl) (hnear' : Near I pl') : Keeps I [] s s' where
  contains r' := by
    by_cases hr' : r' = r
    · subst hr'
      simp [hat.contains hne, hm.located.contains hne']
    · simp [contains_congr fun t => hm.frame r' t hr']
  failed := by simp [hm.failed]
  claimed r' hr' := hm.claimed r' (hat.ne hne hr')
  untouched r' hr' t := (hm.frame r' t (hat.ne hne hr')).mp
  releases := by
    obtain ⟨l, hl, hmem⟩ := hm.releases
    exact ⟨l, hl, fun r' hr' => by rw [hmem r' hr']; exact hat.contains hne⟩
  batches j hj r' := by
    by_cases hr' : r' = r
    · subst hr'
      rw [hm.located, hat]
      exact iff_of_false (hnear' j hj) (hnear j hj)
    · exact hm.frame r' _ hr'

/-- A step that takes `r` to some place between the calls. -/
def Lands (I : Set ℕ) (s s' : BatchConstructor R) (r : R) : Prop :=
  ∃ pl : Place, pl.Settled ∧ Near I pl ∧ Moves s s' r pl

theorem Moves.lands (hm : Moves s s' r pl) (h : Lands I s' s'' r) : Lands I s s'' r := by
  obtain ⟨pl', hs, hnear, hm'⟩ := h
  exact ⟨pl', hs, hnear, hm.trans hm'⟩

theorem Lands.placed (h : Lands I s s' r) (hp : s.PlacedBut r) : s'.Placed := by
  obtain ⟨pl, hs, -, hm⟩ := h
  exact hm.placed hp hs

theorem Lands.keeps (h : Lands I s s' r) (hat : s.At r pl) (hne : pl ≠ .unbound)
    (hnear : Near I pl) : Keeps I [] s s' := by
  obtain ⟨pl', hs', hnear', hm⟩ := h
  exact hm.keeps hat hne (by rintro rfl; exact hs') hnear hnear'

theorem Lands.at_of_ne {r' : R} (h : Lands I s s' r) (hr' : r' ≠ r) (hat : s.At r' pl) : s'.At r' pl := by
  obtain ⟨_, _, _, hm⟩ := h
  exact hm.at_of_ne hr' hat

theorem near_ce : Near I (.ce i) := by simp [Near, tags]

theorem near_tg : Near I (.tg i) := by simp [Near, tags]

/-- What the loops of a replica keep. -/
def Kept (i : ℕ) (s s' : BatchConstructor R) : Prop := s'.Placed ∧ Keeps {i} [] s s'

theorem Kept.trans (h : Kept i s s') (h' : Kept i s' s'') : Kept i s s'' := ⟨h'.1, h.2.trans h'.2⟩

theorem Kept.refl (h : s.Placed) : Kept i s s := ⟨h, Keeps.refl⟩

section
variable (hat : s.At r pl)
include hat

theorem moves_claim : Moves s { s with claimed := update s.claimed r true } r pl :=
  Moves.of_has hat (fun r' t => by cases t <;> rfl) (fun r' hr' => by simp [hr']) rfl ⟨[], by simp, by simp⟩

theorem moves_unclaim : Moves s { s with claimed := update s.claimed r false, releases := s.releases ++ [r] } r pl :=
  Moves.of_has hat (fun r' t => by cases t <;> rfl) (fun r' hr' => by simp [hr']) rfl ⟨[r], rfl, by simp⟩

theorem kvReleaseIfClaimed_ends :
    Ends (kvReleaseIfClaimed r s) (fun _ s' => Moves s s' r pl ∧ s'.claimed r = false) E := by
  rw [kvReleaseIfClaimed, bind_get]
  by_cases hc : s.claimed r = true
  · rw [if_pos hc, kvRelease, bind_get, if_pos hc]
    exact ⟨moves_unclaim hat, by simp⟩
  · rw [if_neg hc]
    exact ⟨Moves.refl hat (fun _ _ => Iff.rfl) rfl rfl rfl, by simpa using hc⟩

theorem setBound_self (hpl : Tag.bound i ∈ pl.tags) : s.setBound r (some i) = s := by
  have hbd : s.boundRequests r = some i := (hat (.bound i)).mpr hpl
  simp [setBound, ← hbd]

theorem requeue_ends {unbind : Bool} (hpl : pl = .inHand i ∨ pl = .ce i)
    (hgen : s.generatedLength r = 0) : Ends (requeue cfg r i unbind s) (fun _ s' => Lands I s s' r) E := by
  have hbd : Tag.bound i ∈ pl.tags := by rcases hpl with rfl | rfl <;> simp [tags]
  rw [requeue, bind_get]
  split_ifs with hpool hnone
  · have hb : s.boundRequests r = some i := (hat _).mpr hbd
    simp [hb] at hnone
  · have hpop := moves_popCe hat hpl
    have hfree := moves_unbind hpop.located
    have hback := moves_pool hfree.located
      (q := ((s.setCe i ((s.replicas i).ceReqs.erase r)).setBound r none).cePending.toFront r) (by grind)
    exact ⟨.cePending, trivial, by simp [Near, tags], (hpop.trans hfree).trans hback⟩
  · rw [bindRequest]
    simp only [bind_modify, hgen, if_true]
    have hpush := moves_pushCe hat hpl
    rw [setBound_self hpush.located (by simp [tags])]
    have hfront := moves_toFrontCe hpush.located (.inr rfl)
    exact ⟨.ce i, trivial, by simp [Near, tags], hpush.trans hfront⟩

theorem returnToRequestQueue_ends {unbind : Bool} (hpl : pl = .inHand i ∨ pl = .tg i ∨ pl = .ce i) :
    Ends (returnToRequestQueue cfg r i unbind s) (fun _ s' => Lands I s s' r) E := by
  rw [returnToRequestQueue]
  refine (kvReleaseIfClaimed_ends hat).bind fun _ s1 ⟨h1, _⟩ => ?_
  have h2 : Moves s1 { s1 with generatedLength := update s1.generatedLength r 0 } r pl :=
    Moves.refl h1.located (fun r' t => by cases t <;> rfl) rfl rfl rfl
  obtain ⟨pl', hpl', h3⟩ : ∃ pl' : Place, (pl' = .inHand i ∨ pl' = .ce i) ∧
      Moves { s1 with generatedLength := update s1.generatedLength r 0 }
        (({ s1 with generatedLength := update s1.generatedLength r 0 } :
          BatchConstructor R).setTg i ((s1.replicas i).tgReqs.erase r)) r pl' := by
    rcases hpl with rfl | rfl | rfl
    · exact ⟨_, .inl rfl, moves_dropTg h2.located (.inl rfl)⟩
    · exact ⟨_, .inl rfl, moves_dropTg h2.located (.inr rfl)⟩
    · exact ⟨_, .inr rfl, moves_dropTg_ce h2.located⟩
  refine (requeue_ends (I := I) h3.located hpl' (by simp [setTg, setReplica])).imp ?_
  exact fun _ _ => ((h1.trans h2).trans h3).lands

end

theorem bindRequest_ends (hat : s.At r .unbound) : Ends (bindRequest r i s) (fun _ s' => Lands I s s' r) E := by
  have hbind := moves_bind hat i
  rw [bindRequest]
  show Lands I s (setBound _ r (some i)) r
  split_ifs with hgen
  · exact ⟨.ce i, trivial, near_ce, hbind.trans (moves_pushCe hbind.located (.inl rfl))⟩
  · exact ⟨.tg i, trivial, near_tg, hbind.trans (moves_pushTg hbind.located)⟩

variable {replicaIdx : Option ℕ} {error : Option String}

theorem admitRequest_ends (hat : s.At r .unbound) :
    Ends (admitRequest cfg r replicaIdx s) (fun _ s' => Lands I s s' r) E := by
  rw [admitRequest, bind_get]
  split_ifs with hpool
  · have hin := moves_pool hat (q := s.cePending.push r) (by grind)
    have harrive : Moves { s with cePending := s.cePending.push r }
        ({ s with cePending := s.cePending.push r }.setArrival r true) r .cePending :=
      Moves.refl hin.located (fun r' t => by cases t <;> rfl) rfl rfl rfl
    exact ⟨.cePending, trivial, by simp [Near, tags], hin.trans harrive⟩
  · exact bindRequest_ends hat

/-- The request is failed by the grammar gate: it is named as such, and goes nowhere. -/
structure Fails (s s' : BatchConstructor R) (r : R) : Prop where
  has : ∀ r' t, s'.Has r' t ↔ s.Has r' t
  claimed : s'.claimed = s.claimed
  releases : s'.releases = s.releases
  failed : s'.grammarFailed.map Prod.fst = s.grammarFailed.map Prod.fst ++ [r]

theorem admitBuilt_ends (hat : s.At r .unbound) : Ends (admitBuilt cfg r replicaIdx error s)
      (fun _ s' => Lands I s s' r ∨ error.isSome = true ∧ Fails s s' r) E := by
  cases error with
  | none => exact (admitRequest_ends hat).imp (fun _ _ h => .inl h)
  | some e => exact .inr ⟨rfl, fun r' t => by cases t <;> rfl, rfl, rfl, by simp⟩

theorem enqueueNewRequest_ends {ready : Bool} (hat : s.At r .unbound) :
    Ends (enqueueNewRequest cfg r replicaIdx ready error s)
      (fun _ s' => Lands I s s' r ∨ error.isSome = true ∧ Fails s s' r) E := by
  rw [enqueueNewRequest, bind_get]
  split_ifs with hgate hready
  · exact admitBuilt_ends hat
  · exact .inl ⟨.grammarPending, trivial, by simp [Near, tags], moves_awaitGrammar hat replicaIdx⟩
  · exact (admitRequest_ends hat).imp (fun _ _ h => .inl h)

end MojoProse.Scheduler.BatchConstructor
