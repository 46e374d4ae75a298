import Mathlib.Order.Defs.Unbundled
import Mathlib.Data.List.Basic

/-! Lists ordered by a strict weak order, given as a test `lt`, and rearrangements that keep equivalent elements in
    their order. -/

namespace MojoProse.Schemes

open List Bool

variable {α : Type} (lt : α → α → Bool)

def equivalent (x y : α) : Bool := !lt x y && !lt y x

def Ordered (l : List α) : Prop := l.Pairwise fun a b => lt b a = false

/-- The same elements, and those of each class of equivalent elements in the same order. -/
structure Arranged (l l' : List α) : Prop where
  perm : l'.Perm l
  classes : ∀ x, l'.filter (equivalent lt x) = l.filter (equivalent lt x)

variable {lt}

theorem Arranged.refl (l : List α) : Arranged lt l l := ⟨.refl l, fun _ => rfl⟩

theorem Arranged.trans {l l' l'' : List α} (h : Arranged lt l l') (h' : Arranged lt l' l'') : Arranged lt l l'' :=
  ⟨h'.perm.trans h.perm, fun x => (h'.classes x).trans (h.classes x)⟩

theorem Arranged.within {part part' : List α} (pre after : List α) (h : Arranged lt part part') :
    Arranged lt (pre ++ part ++ after) (pre ++ part' ++ after) := by
  refine ⟨(h.perm.append_left pre).append_right after, ?_⟩
  intro x
  simp [h.classes x]

section Order

variable [hord : IsStrictWeakOrder α fun a b => lt a b = true]

theorem StrictWeak.self (a : α) : lt a a = false := eq_false_iff.2 (hord.irrefl a)

theorem StrictWeak.asymm {a b : α} (h : lt a b = true) : lt b a = false :=
  eq_false_iff.2 fun hba => hord.irrefl a (hord.trans a b a h hba)

theorem StrictWeak.trans {a b c : α} (hab : lt b a = false) (hbc : lt c b = false) : lt c a = false := by
  refine eq_false_iff.2 fun hca => ?_
  cases hab' : lt a b with
  | true => exact absurd (hord.trans c a b hca hab') (by simp [hbc])
  | false =>
    cases hbc' : lt b c with
    | true => exact absurd (hord.trans b c a hbc' hca) (by simp [hab])
    | false =>
      have hac := hord.incomp_trans a b c (by simp [hab, hab']) (by simp [hbc, hbc'])
      exact hac.2 hca

theorem StrictWeak.of_equivalent {x a b : α} (ha : equivalent lt x a = true) (hb : equivalent lt x b = true) :
    lt a b = false := by
  simp only [equivalent, and_eq_true, not_eq_true'] at ha hb
  exact StrictWeak.trans hb.1 ha.2

theorem Arranged.move {value : α} (pre : List α) {passed : List α} (after : List α)
    (h : ∀ x ∈ passed, lt value x = true) :
    Arranged lt (pre ++ (passed ++ [value]) ++ after) (pre ++ (value :: passed) ++ after) := by
  refine Arranged.within pre after ⟨(perm_append_singleton ..).symm, ?_⟩
  intro x
  rw [filter_cons, filter_append, filter_singleton]
  cases hx : equivalent lt x value with
  | false => simp
  | true =>
    have hnone : passed.filter (equivalent lt x) = [] := by
      refine filter_eq_nil_iff.2 fun y hy hxy => ?_
      exact absurd (h y hy) (by simp [StrictWeak.of_equivalent hx hxy])
    simp [hnone]

theorem Ordered.insert {value : α} {pre passed : List α} (h : Ordered lt (pre ++ passed))
    (hpassed : ∀ x ∈ passed, lt value x = true) (hbef : ∀ x, pre.getLast? = some x → lt value x = false) :
    Ordered lt (pre ++ value :: passed) := by
  obtain ⟨hb, hp, hcross⟩ := pairwise_append.1 h
  have hle : ∀ b ∈ pre, lt value b = false := by
    intro b hmem
    obtain ⟨init, last, rfl⟩ := pre.eq_nil_or_concat.resolve_left (ne_nil_of_mem hmem)
    rw [concat_eq_append] at *
    have hlast := hbef last (by simp)
    rcases mem_append.1 hmem with hinit | hsame
    · exact StrictWeak.trans ((pairwise_append.1 hb).2.2 b hinit last (by simp)) hlast
    · rwa [mem_singleton.1 hsame]
  refine pairwise_append.2 ⟨hb, pairwise_cons.2 ⟨fun y hy => StrictWeak.asymm (hpassed y hy), hp⟩, ?_⟩
  intro b hmem y hy
  rcases mem_cons.1 hy with rfl | hy
  · exact hle b hmem
  · exact hcross b hmem y hy

/-- Two lists as one; an element of the second comes first only if it is smaller. -/
def merged (lt : α → α → Bool) (l l' : List α) : List α := l.merge l' fun a b => !lt b a

omit hord in
theorem merged_cons_cons (a b : α) (l l' : List α) :
    merged lt (a :: l) (b :: l') = if lt b a then b :: merged lt (a :: l) l' else a :: merged lt l (b :: l') := by
  rw [merged, cons_merge_cons]
  cases lt b a <;> rfl

/-- The elements of a class in the second list follow those in the first: no smaller one is ahead of them. -/
theorem filter_merged {l l' : List α} (hl : Ordered lt l) (x : α) : (merged lt l l').filter (equivalent lt x) =
      l.filter (equivalent lt x) ++ l'.filter (equivalent lt x) := by
  induction l generalizing l' with
  | nil => simp [merged]
  | cons a l ih =>
    induction l' with
    | nil => simp [merged]
    | cons b l' ih' =>
      rw [merged_cons_cons]
      split
      · rename_i hba
        rw [filter_cons, ih']
        cases hx : equivalent lt x b with
        | false => simp [hx]
        | true =>
          have hnone : (a :: l).filter (equivalent lt x) = [] := by
            refine filter_eq_nil_iff.2 fun c hc hxc => ?_
            have hac : lt c a = false := by
              rcases mem_cons.1 hc with rfl | hc
              · exact StrictWeak.self c
              · exact (pairwise_cons.1 hl).1 c hc
            have hbc : lt b a = false := StrictWeak.trans hac (StrictWeak.of_equivalent hx hxc)
            exact absurd hba (by simp [hbc])
          simp [hnone, hx]
      · rw [filter_cons, ih (pairwise_cons.1 hl).2]
        cases hx : equivalent lt x a <;> simp [hx]

theorem Arranged.merged {l l' : List α} (hl : Ordered lt l) : Arranged lt (l ++ l') (merged lt l l') := by
  refine ⟨merge_perm_append _, ?_⟩
  intro x
  rw [filter_merged hl, filter_append]

theorem Ordered.merged {l l' : List α} (hl : Ordered lt l) (hl' : Ordered lt l') : Ordered lt (merged lt l l') := by
  have htrans : ∀ a b c : α, (!lt b a) = true → (!lt c b) = true → (!lt c a) = true := by
    intro a b c hab hbc
    simp only [not_eq_true'] at *
    exact StrictWeak.trans hab hbc
  have htotal : ∀ a b : α, ((!lt b a) || !lt a b) = true := by
    intro a b
    cases hab : lt a b with
    | true => simp [StrictWeak.asymm hab]
    | false => simp
  have hmerge := pairwise_merge htrans htotal l l'
  simp only [not_eq_true'] at hmerge
  exact hmerge hl hl'

end Order

/-- Every run of `m` elements is in order, counted from the front; the last run may be shorter. -/
def Runs (lt : α → α → Bool) (m : ℕ) (l : List α) : Prop := ∀ c, Ordered lt ((l.drop (c * m)).take m)

variable {m : ℕ} {l : List α}

theorem runs_iff : Runs lt m l ↔ Ordered lt (l.take m) ∧ Runs lt m (l.drop m) := by
  constructor
  · intro h
    refine ⟨by simpa using h 0, ?_⟩
    intro c
    have hnext := h (c + 1)
    rwa [Nat.succ_mul, Nat.add_comm, ← drop_drop] at hnext
  · rintro ⟨hfst, hrest⟩ c
    cases c with
    | zero => simpa using hfst
    | succ c =>
      rw [Nat.succ_mul, Nat.add_comm, ← drop_drop]
      exact hrest c

theorem runs_nil (m : ℕ) : Runs lt m [] := by
  intro c
  simp [Ordered]

theorem runs_of_ordered (h : Ordered lt l) (hlen : l.length ≤ m) : Runs lt m l := by
  refine runs_iff.2 ⟨by rwa [take_of_length_le hlen], ?_⟩
  rw [drop_eq_nil_of_le hlen]
  exact runs_nil m

theorem ordered_of_runs (h : Runs lt m l) (hlen : l.length ≤ m) : Ordered lt l := by
  have hfst := (runs_iff.1 h).1
  rwa [take_of_length_le hlen] at hfst

theorem runs_append {run rest : List α} (hlen : run.length = m) :
    Runs lt m (run ++ rest) ↔ Ordered lt run ∧ Runs lt m rest := by
  subst hlen
  rw [runs_iff, take_left, drop_left]

theorem Runs.pair (h : Runs lt m l) (hlen : m < l.length) :
    ∃ run run' rest, l = run ++ run' ++ rest ∧ run.length = m ∧ run'.length = min m (l.length - m) ∧
      Ordered lt run ∧ Ordered lt run' ∧ Runs lt m rest := by
  obtain ⟨hrun, hnext⟩ := runs_iff.1 h
  obtain ⟨hrun', hrest⟩ := runs_iff.1 hnext
  refine ⟨l.take m, (l.drop m).take m, (l.drop m).drop m, ?_, ?_, by simp, hrun, hrun', hrest⟩
  · rw [append_assoc, take_append_drop, take_append_drop]
  · rw [length_take]
    omega

/-- A pass that puts a list into runs of `m` elements has come to the place `j`; `R` holds of what it has not reached. -/
def Passing (lt : α → α → Bool) (m : ℕ) (R : List α → Prop) (j : ℕ) (l : List α) : Prop :=
  (∃ done rest, l = done ++ rest ∧ done.length = j ∧ R rest ∧ ∀ tail, Runs lt m tail → Runs lt m (done ++ tail)) ∨
    l.length ≤ j ∧ Runs lt m l

variable {R : List α → Prop}

theorem Passing.start (h : R l) : Passing lt m R 0 l := .inl ⟨[], l, rfl, rfl, h, fun _ htail => htail⟩

/-- A run of full length is put in order, or the last one. -/
theorem Passing.step {done run rest : List α} (hrun : Ordered lt run)
    (hdone : ∀ tail, Runs lt m tail → Runs lt m (done ++ tail)) (hR : R rest)
    (hlen : run.length = min m (run.length + rest.length)) : Passing lt m R (done.length + m) (done ++ run ++ rest) := by
  rcases (by omega : run.length = m ∨ rest.length = 0 ∧ run.length ≤ m) with hlen | ⟨hnil, hle⟩
  · refine .inl ⟨done ++ run, rest, rfl, by simp [hlen], hR, ?_⟩
    intro tail htail
    rw [append_assoc]
    exact hdone _ ((runs_append hlen).2 ⟨hrun, htail⟩)
  · obtain rfl := eq_nil_of_length_eq_zero hnil
    refine .inr ⟨by simpa using hle, ?_⟩
    rw [append_nil]
    exact hdone _ (runs_of_ordered hrun hle)

/-- The pass is over if what it has not reached is in runs by itself. -/
theorem Passing.finish {j : ℕ} (h : Passing lt m R j l)
    (hrest : ∀ rest, R rest → j + rest.length = l.length → Runs lt m rest) : Runs lt m l := by
  rcases h with ⟨done, rest, rfl, rfl, hR, hdone⟩ | ⟨-, hruns⟩
  · exact hdone rest (hrest rest hR (length_append ..).symm)
  · exact hruns

end MojoProse.Schemes
