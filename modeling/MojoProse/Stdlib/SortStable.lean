import MojoProse.Stdlib.SortQuick

/-! The stable sort: runs of the length of the threshold are sorted by insertion, then runs are merged pair by pair. -/

namespace MojoProse.Stdlib.Sort

open Schemes Ends List

variable {α : Type}

variable {span : List α} {i : ℕ}

theorem element_ok {β : Type} {x : α} (h : span[i]? = some x) (s : β) :
    (element span i : EStateM SortFault β α) s = .ok x s := by
  rw [element, h]
  rfl

variable {result : List (Option α)} {written : List α} {size : ℕ}

theorem putResult_ok {k : ℕ} (x : α) (h : k < result.length) :
    putResult k x result = .ok () (result.set k (some x)) := by
  change (if k < result.length then set (result.set k (some x)) else throw .outside :
    EStateM SortFault (List (Option α)) Unit) result = _
  rw [if_pos h]
  rfl

/-- The result holds `written` in its first cells. -/
def Written (size : ℕ) (written : List α) (result : List (Option α)) : Prop :=
  result.length = size ∧ result.take written.length = written.map some

theorem Written.set (h : Written size written result)
    (hlen : written.length < size) (x : α) : Written size (written ++ [x]) (result.set written.length (some x)) := by
  obtain ⟨hsize, htake⟩ := h
  refine ⟨by rwa [length_set], ?_⟩
  rw [length_append, length_singleton, take_add_one, take_set_of_le (Nat.le_refl _), htake,
    getElem?_set_self (by omega)]
  simp

theorem moveRest_does (span : List α)
    (h : Written size written result) (hi : i ≤ span.length) (hfits : written.length + (span.length - i) ≤ size) :
    Ends (moveRest span i written.length result) (fun _ => Written size (written ++ span.drop i)) fun _ _ => False := by
  rw [moveRest]
  refine loop (fun vars res' => vars.1 ≤ span.length ∧ vars.2 + (span.length - vars.1) ≤ size ∧
    ∃ written', vars.2 = written'.length ∧ Written size written' res' ∧
      written' ++ span.drop vars.1 = written ++ span.drop i) (fun vars _ => span.length - vars.1) ?_
    ⟨hi, hfits, written, rfl, h, rfl⟩ (by omega)
  rintro ⟨i', k⟩ res' ⟨hi', hfits', written', rfl, h', hsame⟩
  rw [moveRestTurn]
  split
  · rename_i hlt
    obtain ⟨x, hx⟩ : ∃ x, span[i']? = some x := ⟨_, getElem?_eq_getElem hlt⟩
    rw [bind_of_ok (element_ok hx res'), bind_of_ok (putResult_ok x (by rw [h'.1]; omega))]
    refine ⟨⟨by omega, by omega, written' ++ [x], by simp, h'.set (by omega) x, ?_⟩, by simp only; omega⟩
    rw [← hsame, List.drop_eq_getElem_cons hlt, (List.getElem?_eq_some_iff.1 hx).2]
    simp
  · rw [drop_eq_nil_of_le (by omega), append_nil] at hsame
    rw [← hsame]
    exact h'

variable {cmpFn : α → α → Bool}

/-- What is written and the merge of what is left are the merge of the two spans. -/
structure Merging (cmpFn : α → α → Bool) (span1 span2 : List α) (size : ℕ) (vars : ℕ × ℕ × ℕ)
    (result : List (Option α)) : Prop where
  fst : vars.1 ≤ span1.length
  snd : vars.2.1 ≤ span2.length
  count : vars.2.2 = vars.1 + vars.2.1
  split : ∃ written, vars.2.2 = written.length ∧ Written size written result ∧
    written ++ merged cmpFn (span1.drop vars.1) (span2.drop vars.2.1) = merged cmpFn span1 span2

/-- What the first loop ends with: all is written, or all but what is left of the second span. -/
def MergeEnd (cmpFn : α → α → Bool) (span1 span2 : List α) (size : ℕ) : Option (ℕ × ℕ) → List (Option α) → Prop
  | none, result => Written size (merged cmpFn span1 span2) result
  | some (j, k), result => j ≤ span2.length ∧ ∃ written, k = written.length ∧ k = span1.length + j ∧
      Written size written result ∧ written ++ span2.drop j = merged cmpFn span1 span2

theorem mergeTurn_does {span1 span2 : List α} (hfits : span1.length + span2.length ≤ size)
    {vars : ℕ × ℕ × ℕ} (h : Merging cmpFn span1 span2 size vars result) : Ends (mergeTurn cmpFn span1 span2 vars result)
      (Advances (Merging cmpFn span1 span2 size) (fun vars _ => span1.length + span2.length - (vars.1 + vars.2.1))
        (MergeEnd cmpFn span1 span2 size) (span1.length + span2.length - (vars.1 + vars.2.1))) fun _ _ => False := by
  rcases vars with ⟨i, j, k⟩
  obtain ⟨hi, hj, hk, written, rfl, hwritten, hsame⟩ := h
  simp only at hi hj hk hsame
  rw [mergeTurn]
  split
  · rename_i hlt
    split
    · rename_i hend
      refine bind (moveRest_does span1 hwritten hi (by omega)) ?_
      intro _ res' hwritten'
      rw [hend, drop_length, merged, merge_right] at hsame
      change Written size (merged cmpFn span1 span2) res'
      rw [← hsame]
      exact hwritten'
    · obtain ⟨x, hx⟩ : ∃ x, span1[i]? = some x := ⟨_, getElem?_eq_getElem hlt⟩
      obtain ⟨y, hy⟩ : ∃ y, span2[j]? = some y := ⟨_, getElem?_eq_getElem (by omega)⟩
      have hdrop1 : span1.drop i = x :: span1.drop (i + 1) := by
        rw [List.drop_eq_getElem_cons hlt, (List.getElem?_eq_some_iff.1 hx).2]
      have hdrop2 : span2.drop j = y :: span2.drop (j + 1) := by
        rw [List.drop_eq_getElem_cons (by omega), (List.getElem?_eq_some_iff.1 hy).2]
      have hroom : written.length < result.length := by
        rw [hwritten.1]
        omega
      rw [hdrop1, hdrop2, merged_cons_cons] at hsame
      rw [bind_of_ok (element_ok hy result), bind_of_ok (element_ok hx result)]
      cases hyx : cmpFn y x with
      | true =>
        rw [if_pos rfl, bind_of_ok (putResult_ok y hroom)]
        refine ⟨⟨hi, by simp only; omega, by simp only; omega, written ++ [y], by simp,
          hwritten.set (by omega) y, ?_⟩, by simp only; omega⟩
        rw [← hsame, hyx, if_pos rfl, hdrop1]
        simp
      | false =>
        rw [if_neg (by simp), bind_of_ok (putResult_ok x hroom)]
        refine ⟨⟨by omega, hj, by simp only; omega, written ++ [x], by simp,
          hwritten.set (by omega) x, ?_⟩, by simp only; omega⟩
        rw [← hsame, hyx, if_neg (by simp), hdrop2]
        simp
  · refine ⟨hj, written, rfl, by omega, hwritten, ?_⟩
    rw [drop_eq_nil_of_le (by omega), merged, nil_merge] at hsame
    exact hsame

theorem merge_does (span1 span2 : List α) (hfits : span1.length + span2.length ≤ result.length) :
    Ends (merge cmpFn span1 span2 result) (fun _ => Written result.length (merged cmpFn span1 span2))
      fun _ _ => False := by
  rw [merge, bind_get, if_pos hfits]
  refine bind (loop (Merging cmpFn span1 span2 result.length)
    (fun vars _ => span1.length + span2.length - (vars.1 + vars.2.1)) (fun vars res' h => mergeTurn_does hfits h)
    ⟨Nat.zero_le _, Nat.zero_le _, rfl, [], rfl, ⟨rfl, by simp⟩, by simp⟩ (by omega)) ?_
  intro exit res' hexit
  rcases exit with _ | ⟨j, k⟩
  · exact hexit
  · obtain ⟨hj, written, rfl, hk, hwritten, hsame⟩ := hexit
    rw [← hsame]
    exact moveRest_does span2 hwritten hj (by omega)

omit cmpFn in
theorem set_next {done part after : List α} {x : α} (hx : written[i]? = some x) (hi : i < part.length) :
    (done ++ (written.take i ++ part.drop i) ++ after).set (done.length + i) x =
      done ++ (written.take (i + 1) ++ part.drop (i + 1)) ++ after := by
  have hlen : (written.take i).length = i := by
    have := (List.getElem?_eq_some_iff.1 hx).1
    rw [length_take]
    omega
  have hplace : done.length + i = (done ++ written.take i).length := by rw [length_append, hlen]
  obtain ⟨p, hp⟩ : ∃ p, part.drop i = p :: part.drop (i + 1) := ⟨_, drop_eq_getElem_cons hi⟩
  rw [hp, take_add_one, hx, hplace]
  simp

theorem moveBack_does {done part after : List α} {temp : List (Option α)}
    (hlen : written.length = part.length) (htemp : temp.take written.length = written.map some) :
    Ends (moveBack done.length written.length (⟨done ++ part ++ after, temp⟩ : Buffers α))
      (fun _ b => b = ⟨done ++ written ++ after, temp⟩) fun _ _ => False := by
  let I : List ℕ → Buffers α → Prop := fun rest b => ∃ i, rest = range' i (written.length - i) ∧
    b = ⟨done ++ (written.take i ++ part.drop i) ++ after, temp⟩
  rw [moveBack]
  refine imp (forM (I := I) ?_ _ _ ⟨0, range_eq_range', by simp⟩) ?_
  · rintro i rest b ⟨i', hrest, rfl⟩
    obtain ⟨n, hn⟩ : ∃ n, written.length - i' = n + 1 :=
      Nat.exists_eq_succ_of_ne_zero (by rintro h; rw [h] at hrest; simp at hrest)
    rw [hn, range'_succ] at hrest
    obtain ⟨rfl, rfl⟩ := cons.inj hrest
    obtain ⟨x, hx⟩ : ∃ x, written[i]? = some x := ⟨_, getElem?_eq_getElem (by omega)⟩
    have hcell : temp[i]? = some (some x) := by
      rw [← getElem?_take_of_lt (show i < written.length by omega), htemp, getElem?_map, hx]
      rfl
    rw [bind_get]
    simp only [hcell]
    refine zoom ?_
    rw [unsafeWrite_ok x (by simp; omega), set_next hx (by omega)]
    exact ⟨i + 1, by congr 1; omega, rfl⟩
  · rintro _ b ⟨i, hrest, rfl⟩
    have hi : 0 = written.length - i := by simpa using congrArg length hrest
    rw [take_of_length_le (by omega), drop_eq_nil_of_le (by omega), append_nil]

variable [IsStrictWeakOrder α fun a b => cmpFn a b = true]

/-- The span is rearranged so that its runs of `m` elements are in order; the buffer is as long as the span. -/
structure Sorting (cmpFn : α → α → Bool) (span : List α) (P : List α → Prop) (b : Buffers α) : Prop where
  arranged : Arranged cmpFn span b.span
  temp : b.temp.length = span.length
  holds : P b.span

variable {b : Buffers α}

omit [IsStrictWeakOrder α fun a b => cmpFn a b = true] in
theorem Sorting.length {P : List α → Prop} (h : Sorting cmpFn span P b) :
    b.span.length = span.length := h.arranged.perm.length_eq

theorem runTurn_does (h : Sorting cmpFn span (Passing cmpFn insertionSortThreshold (fun _ => True) i) b) :
    Ends (runTurn cmpFn i b) (Advances (fun i => Sorting cmpFn span (Passing cmpFn insertionSortThreshold (fun _ => True) i))
      (fun i _ => span.length - i) (fun _ => Sorting cmpFn span (Runs cmpFn insertionSortThreshold)) (span.length - i))
      fun _ _ => False := by
  have hsize := h.length
  rw [runTurn, bind_get]
  split
  · rename_i hlt
    rcases b with ⟨_, temp⟩
    obtain ⟨harr, htemp, ⟨done, rest, rfl, rfl, -, hdone⟩ | ⟨hend, -⟩⟩ := h
    · obtain ⟨part, after, rfl, hpart⟩ : ∃ part after, rest = part ++ after ∧
          part.length = min insertionSortThreshold rest.length :=
        ⟨rest.take (min insertionSortThreshold rest.length), _, (take_append_drop ..).symm, by simp⟩
      simp only [length_append] at hlt hsize hpart
      have hcnt : min insertionSortThreshold ((done ++ (part ++ after)).length - done.length) = part.length := by
        rw [length_append, Nat.add_sub_cancel_left, length_append]
        exact hpart.symm
      have hsort : Ends (zoom Buffers.span (fun b span => { b with span })
          (withinSubspan done.length part.length (insertionSort cmpFn)) ⟨done ++ part ++ after, temp⟩)
          (fun _ => Sorting cmpFn span
            (Passing cmpFn insertionSortThreshold (fun _ => True) (done.length + insertionSortThreshold)))
          fun _ _ => False := by
        refine zoom (withinSubspan_does ((insertionSort_does part).imp ?_))
        rintro _ part' ⟨hpart', hord⟩
        have hlen := hpart'.perm.length_eq
        refine ⟨harr.trans ?_, htemp, .step hord hdone trivial (by omega)⟩
        rw [← append_assoc]
        exact hpart'.within done after
      rw [hcnt, ← append_assoc]
      refine bind hsort ?_
      intro _ b' h'
      exact ⟨h', by simp [insertionSortThreshold]; omega⟩
    · omega
  · refine ⟨h.arranged, h.temp, h.holds.finish ?_⟩
    intro rest _ hlen
    rw [eq_nil_of_length_eq_zero (show rest.length = 0 by omega)]
    exact runs_nil _

theorem mergePairTurn_does {mergeSize j : ℕ} (hpos : 0 < mergeSize)
    (h : Sorting cmpFn span (Passing cmpFn (2 * mergeSize) (Runs cmpFn mergeSize) j) b) :
    Ends (mergePairTurn cmpFn mergeSize j b)
      (Advances (fun j => Sorting cmpFn span (Passing cmpFn (2 * mergeSize) (Runs cmpFn mergeSize) j))
        (fun j _ => span.length - j) (fun _ => Sorting cmpFn span (Runs cmpFn (2 * mergeSize))) (span.length - j))
      fun _ _ => False := by
  have hsize := h.length
  rw [mergePairTurn, bind_get]
  split
  · rename_i hlt
    rcases b with ⟨_, temp⟩
    obtain ⟨harr, htemp, ⟨done, rest, rfl, rfl, hruns, hdone⟩ | ⟨hend, -⟩⟩ := h
    · simp only [length_append] at htemp hlt hsize
      obtain ⟨run, run', after, rfl, hrun, hrun', hord, hord', hafter⟩ := hruns.pair (by omega)
      have hspan1 : ((done ++ (run ++ run' ++ after)).drop done.length).take mergeSize = run := by
        rw [drop_left, append_assoc, ← hrun, take_left]
      have hspan2 : ((done ++ (run ++ run' ++ after)).drop (done.length + mergeSize)).take
          (min mergeSize ((done ++ (run ++ run' ++ after)).length - (done.length + mergeSize))) = run' := by
        rw [length_append, Nat.add_sub_add_left, ← hrun', ← drop_drop, drop_left, append_assoc,
          ← hrun, drop_left, take_left]
      have hmerged : (merged cmpFn run run').length = mergeSize + run'.length := by
        rw [(Arranged.merged hord).perm.length_eq, length_append, hrun]
      simp only [hspan1, hspan2, ← hmerged]
      simp only [length_append] at hrun' htemp hsize
      have hmerge : Ends (zoom Buffers.temp (fun b temp => { b with temp }) (merge cmpFn run run')
          ⟨done ++ (run ++ run' ++ after), temp⟩)
          (fun _ b => ∃ temp', b = ⟨done ++ (run ++ run') ++ after, temp'⟩ ∧
            Written temp.length (merged cmpFn run run') temp') fun _ _ => False := by
        refine zoom ((merge_does run run' ?_).imp ?_)
        · change run.length + run'.length ≤ temp.length
          omega
        · intro _ temp' hwritten
          exact ⟨temp', by simp, hwritten⟩
      refine bind hmerge ?_
      rintro _ _ ⟨temp', rfl, hlen, htake⟩
      refine bind (moveBack_does (by rw [hmerged, length_append, hrun]) htake) ?_
      rintro _ _ rfl
      refine ⟨⟨harr.trans ?_, hlen.trans htemp, .step (hord.merged hord') hdone hafter (by omega)⟩, by simp only; omega⟩
      have hwithin : Arranged cmpFn (done ++ (run ++ run') ++ after) (done ++ merged cmpFn run run' ++ after) :=
        (Arranged.merged hord).within done after
      simpa using hwithin
    · omega
  · refine ⟨h.arranged, h.temp, h.holds.finish ?_⟩
    intro rest hruns hlen
    exact runs_of_ordered (ordered_of_runs hruns (by omega)) (by omega)

theorem mergeSizeTurn_does {mergeSize : ℕ} (h : 0 < mergeSize ∧ Sorting cmpFn span (Runs cmpFn mergeSize) b) :
    Ends (mergeSizeTurn cmpFn mergeSize b)
      (Advances (fun mergeSize b => 0 < mergeSize ∧ Sorting cmpFn span (Runs cmpFn mergeSize) b)
        (fun mergeSize _ => span.length - mergeSize) (fun _ => Sorting cmpFn span (Ordered cmpFn))
        (span.length - mergeSize)) fun _ _ => False := by
  obtain ⟨hpos, h⟩ := h
  have hsize := h.length
  rw [mergeSizeTurn, bind_get]
  split
  · refine bind (loop (fun j => Sorting cmpFn span (Passing cmpFn (2 * mergeSize) (Runs cmpFn mergeSize) j))
      (fun j _ => span.length - j) (fun j b' h' => mergePairTurn_does hpos h')
      ⟨h.arranged, h.temp, .start h.holds⟩ (by omega)) ?_
    intro _ b' h'
    rw [Nat.mul_comm] at h'
    exact ⟨⟨by omega, h'⟩, by simp only; omega⟩
  · exact ⟨h.arranged, h.temp, ordered_of_runs h.holds (by omega)⟩

theorem stableSort_does (span : List α) :
    Does (stableSort cmpFn) span fun _ span' => Arranged cmpFn span span' ∧ Ordered cmpFn span' := by
  rw [Does, stableSort, bind_get]
  refine zoom ?_
  rw [stableSortImpl, bind_get]
  split
  · rename_i hshort
    refine ⟨.refl _, ?_⟩
    rcases span with _ | ⟨x, _ | ⟨y, span⟩⟩
    · exact .nil
    · exact pairwise_singleton ..
    · simp at hshort
  · have hstart : Sorting cmpFn span (Passing cmpFn insertionSortThreshold (fun _ => True) 0)
        ⟨span, replicate span.length none⟩ := ⟨.refl _, by simp, .start trivial⟩
    refine bind (loop
      (fun i => Sorting cmpFn span (Passing cmpFn insertionSortThreshold (fun _ => True) i)) (fun i _ => span.length - i)
      (fun i b h => runTurn_does h) hstart (by simp only; omega)) ?_
    intro _ b h
    refine (loop (fun mergeSize b => 0 < mergeSize ∧ Sorting cmpFn span (Runs cmpFn mergeSize) b)
      (fun mergeSize _ => span.length - mergeSize) (fun mergeSize b h => mergeSizeTurn_does h)
      ⟨by decide, h⟩ (by simp only; omega)).imp ?_
    intro _ b' h'
    exact ⟨h'.arranged, h'.holds⟩

/-- `sort` ends without leaving the span: the result is a permutation in which no element is followed by a smaller one,
    and with `stable=True` the elements of each class of equivalent ones are in the order they had. -/
theorem sort_correct (cmpFn : α → α → Bool) [IsStrictWeakOrder α fun a b => cmpFn a b = true] (stable : Bool)
    (span : List α) : ∃ span', sort cmpFn stable span = .ok () span' ∧ span'.Perm span ∧
      span'.Pairwise (fun a b => cmpFn b a = false) ∧
      (stable = true → ∀ x, span'.filter (equivalent cmpFn x) = span.filter (equivalent cmpFn x)) := by
  have hsort : Does (sort cmpFn stable) span fun _ span' => span'.Perm span ∧ Ordered cmpFn span' ∧
      (stable = true → ∀ x, span'.filter (equivalent cmpFn x) = span.filter (equivalent cmpFn x)) := by
    rw [Does, sort, bind_get]
    split
    · refine (insertionSort_does span).imp ?_
      rintro _ span' ⟨harranged, hordered⟩
      exact ⟨harranged.perm, hordered, fun _ => harranged.classes⟩
    · cases stable with
      | true =>
        refine (stableSort_does span).imp ?_
        rintro _ span' ⟨harranged, hordered⟩
        exact ⟨harranged.perm, hordered, fun _ => harranged.classes⟩
      | false =>
        refine (quicksort_does span).imp ?_
        rintro _ span' ⟨hperm, hordered⟩
        exact ⟨hperm, hordered, fun h => by cases h⟩
  obtain ⟨_, span', hok, hperm, hordered, hclasses⟩ := hsort.ok
  exact ⟨span', hok, hperm, hordered, hclasses⟩

/-- Pairs by their first component. -/
theorem sort_correct_pairs :
    ∃ span', sort (fun a b : ℕ × ℕ => decide (a.1 < b.1)) true [(2, 0), (1, 1), (2, 2)] = .ok () span' ∧
      span'.Perm [(2, 0), (1, 1), (2, 2)] ∧ span'.Pairwise (fun a b => decide (b.1 < a.1) = false) ∧
      (true = true → ∀ x, span'.filter (equivalent (fun a b => decide (a.1 < b.1)) x) =
        [(2, 0), (1, 1), (2, 2)].filter (equivalent (fun a b => decide (a.1 < b.1)) x)) := by
  have : IsStrictWeakOrder (ℕ × ℕ) fun a b => decide (a.1 < b.1) = true :=
    { irrefl := by simp
      trans := by
        intro a b c hab hbc
        simp only [decide_eq_true_eq] at *
        omega
      incomp_trans := by
        intro a b c hab hbc
        simp only [decide_eq_true_eq] at *
        omega }
  exact sort_correct _ true _

end MojoProse.Stdlib.Sort
