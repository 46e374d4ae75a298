import MojoProse.Stdlib.IntervalTreeInsert

/-! What `search` finds: the overlapping intervals of the tree, apart from those below a child that it does not enter.

    The left child is judged by its own start, but intervals further down on the left start earlier. The right child is
    judged by its `max_end`, which is too low where a node came up by `_right_rotate`. -/

namespace MojoProse.Stdlib

open Schemes List

variable {T U : Type} [LinearOrder T]

/-- The data of those intervals that overlap the query: what `search` should return. -/
def overlapping (interval : Interval T) (inserted : List (Interval T × U)) : List U :=
  (inserted.filter fun entry => entry.1.overlaps interval).map Prod.snd

namespace IntervalTree

@[simp]
theorem overlapping_append (interval : Interval T) (first last : List (Interval T × U)) :
    overlapping interval (first ++ last) = overlapping interval first ++ overlapping interval last := by
  simp [overlapping]

/-- The data of a node if its interval overlaps. -/
def own (interval : Interval T) (n : IntervalNode T U) : List U :=
  if n.interval.overlaps interval then [n.data] else []

theorem overlapping_cons (interval : Interval T) (n : IntervalNode T U) (rest : List (Interval T × U)) :
    overlapping interval (n.entry :: rest) = own interval n ++ overlapping interval rest := by
  by_cases h : n.interval.overlaps interval <;> simp [overlapping, own, IntervalNode.entry, h]

/-- What the search finds below a node that it takes from its work list. -/
def found (interval : Interval T) : BinaryTree (IntervalNode T U) → List U
  | .nil => []
  | .node n l r =>
    own interval n ++ ((if entersRight interval r then found interval r else []) ++
      if entersLeft interval l then found interval l else [])

/-- What overlaps below a node but is not found. -/
def missed (interval : Interval T) : BinaryTree (IntervalNode T U) → List U
  | .nil => []
  | .node _ l r =>
    (if entersRight interval r then missed interval r else overlapping interval (entries r)) ++
      if entersLeft interval l then missed interval l else overlapping interval (entries l)

/-- The work list is done node by node, each with all that is found below it. -/
theorem searchHelper_eq (interval : Interval T) (workList : List (BinaryTree (IntervalNode T U))) (res : List U) :
    searchHelper interval workList res = res ++ workList.flatMap (found interval) := by
  fun_induction searchHelper with
  | case1 => simp
  | case2 workList res ih => simpa [found] using ih
  | case3 n l r workList res res' workList' workList'' ih =>
    rw [ih]
    simp only [res', workList', workList'', flatMap_cons, found, own]
    split_ifs <;> simp

omit [LinearOrder T] in
theorem perm_append_shuffle {α : Type} (a b c d : List α) : ((a ++ b) ++ (c ++ d)).Perm ((a ++ c) ++ (b ++ d)) := by
  simp only [append_assoc]
  exact (perm_append_comm_assoc ..).append_left a

theorem found_missed_perm (interval : Interval T) (t : BinaryTree (IntervalNode T U)) :
    (found interval t ++ missed interval t).Perm (overlapping interval (entries t)) := by
  induction t with
  | nil => exact .refl _
  | node n l r ihl ihr =>
    simp only [found, missed, entries_node, overlapping_append, overlapping_cons]
    have hright : ((if entersRight interval r then found interval r else []) ++
        if entersRight interval r then missed interval r else overlapping interval (entries r)).Perm
        (overlapping interval (entries r)) := by
      split_ifs
      · exact ihr
      · exact .refl _
    have hleft : ((if entersLeft interval l then found interval l else []) ++
        if entersLeft interval l then missed interval l else overlapping interval (entries l)).Perm
        (overlapping interval (entries l)) := by
      split_ifs
      · exact ihl
      · exact .refl _
    rw [append_assoc]
    refine ((perm_append_shuffle ..).append_left _).trans ?_
    refine ((hright.append hleft).append_left _).trans ?_
    rw [← append_assoc]
    exact perm_append_comm

/-- Below a child that the search does not enter, nothing overlaps. -/
def Exhaustive (interval : Interval T) : BinaryTree (IntervalNode T U) → Prop
  | .nil => True
  | .node _ l r =>
    (entersLeft interval l = false → ∀ entry ∈ entries l, entry.1.overlaps interval = false) ∧
    (entersRight interval r = false → ∀ entry ∈ entries r, entry.1.overlaps interval = false) ∧
    Exhaustive interval l ∧ Exhaustive interval r

variable {interval : Interval T}

theorem overlapping_eq_nil {inserted : List (Interval T × U)} :
    overlapping interval inserted = [] ↔ ∀ entry ∈ inserted, entry.1.overlaps interval = false := by
  simp [overlapping, filter_eq_nil_iff]

variable {t : BinaryTree (IntervalNode T U)}

theorem missed_of_overlapping (h : overlapping interval (entries t) = []) : missed interval t = [] := by
  have hperm := found_missed_perm interval t
  rw [h, perm_nil, append_eq_nil_iff] at hperm
  exact hperm.2

theorem missed_child_eq_nil (enters : Bool) :
    (if enters then missed interval t else overlapping interval (entries t)) = [] ↔
      (enters = false → overlapping interval (entries t) = []) ∧ missed interval t = [] := by
  cases enters with
  | true => simp
  | false => simpa using missed_of_overlapping

theorem missed_eq_nil : missed interval t = [] ↔ Exhaustive interval t := by
  induction t with
  | nil => simp [missed, Exhaustive]
  | node n l r ihl ihr =>
    rw [missed, Exhaustive, append_eq_nil_iff, missed_child_eq_nil, missed_child_eq_nil, ihl, ihr,
      overlapping_eq_nil, overlapping_eq_nil]
    constructor
    · rintro ⟨⟨hright, hr⟩, hleft, hl⟩
      exact ⟨hleft, hright, hl, hr⟩
    · rintro ⟨hleft, hright, hl, hr⟩
      exact ⟨⟨hright, hr⟩, hleft, hl⟩

end IntervalTree

end MojoProse.Stdlib
