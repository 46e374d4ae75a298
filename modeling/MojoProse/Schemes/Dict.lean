import Mathlib.Data.List.Nodup
import Mathlib.Data.List.Basic
import Mathlib.Algebra.BigOperators.Group.List.Basic

/-! A dictionary in order of insertion: an association list whose keys are distinct. -/

namespace MojoProse.Schemes

open List

variable {K V : Type*}

structure Dict (K V : Type*) where
  entries : List (K × V)
  nodup : (entries.map Prod.fst).Nodup

namespace Dict

def empty : Dict K V := ⟨[], nodup_nil⟩

def filter (d : Dict K V) (p : K × V → Bool) : Dict K V :=
  ⟨d.entries.filter p, (Sublist.map Prod.fst filter_sublist).nodup d.nodup⟩

theorem keys_overwrite (l : List (K × V)) (k : K) (v : V) [DecidableEq K] :
    (l.map fun e => if e.1 = k then (k, v) else e).map Prod.fst = l.map Prod.fst := by
  rw [map_map]
  refine map_congr_left fun e _ => ?_
  simp only [Function.comp_apply]
  split_ifs with he
  · exact he.symm
  · rfl

variable [DecidableEq K]

/-- `d.get(k)`. -/
def get? (d : Dict K V) (k : K) : Option V := (d.entries.find? fun e => e.1 = k).map Prod.snd

/-- `del d[k]`; nothing happens when the key is absent. -/
def erase (d : Dict K V) (k : K) : Dict K V := d.filter fun e => e.1 ≠ k

/-- `d[k] = v` for a key that is not there yet. -/
def insertNew (d : Dict K V) (k : K) (v : V) (h : k ∉ d.entries.map Prod.fst) : Dict K V where
  entries := d.entries ++ [(k, v)]
  nodup := by
    rw [map_append, nodup_append]
    refine ⟨d.nodup, by simp, ?_⟩
    rintro a ha b hb rfl
    simp only [map_cons, map_nil, mem_singleton] at hb
    exact h (hb ▸ ha)

variable {d : Dict K V} {k' k : K} {v : V}

theorem get?_eq_some_iff : d.get? k = some v ↔ (k, v) ∈ d.entries := by
  obtain ⟨l, hnd⟩ := d
  simp only [get?]
  induction l with
  | nil => simp
  | cons e l ih =>
    obtain ⟨k', v'⟩ := e
    simp only [map_cons, nodup_cons, mem_map, not_exists, not_and] at hnd
    by_cases hk : k' = k
    · subst hk
      simp only [find?_cons, decide_true, Option.map_some, Option.some.injEq, mem_cons, Prod.mk.injEq, true_and]
      constructor
      · rintro rfl
        exact .inl rfl
      · rintro (rfl | hmem)
        · rfl
        · exact absurd rfl (hnd.1 _ hmem)
    · have hne : ¬ k = k' := fun h => hk h.symm
      simp only [find?_cons, hk, decide_false, mem_cons, Prod.mk.injEq, hne, false_and, false_or]
      exact ih hnd.2

theorem mem_keys_iff : k ∈ d.entries.map Prod.fst ↔ ∃ v, d.get? k = some v := by
  simp [get?_eq_some_iff]

theorem get?_eq_none_iff : d.get? k = none ↔ k ∉ d.entries.map Prod.fst := by
  rw [mem_keys_iff, Option.eq_none_iff_forall_ne_some]
  simp

@[simp] theorem get?_empty (k : K) : (empty : Dict K V).get? k = none := rfl

theorem get?_filter {p : K × V → Bool} : (d.filter p).get? k = some v ↔ d.get? k = some v ∧ p (k, v) = true := by
  simp [get?_eq_some_iff, filter, mem_filter]

theorem get?_erase : (d.erase k).get? k' = some v ↔ d.get? k' = some v ∧ k' ≠ k := by
  simp [erase, get?_filter]

theorem get?_insertNew {v v' : V} {h : k ∉ d.entries.map Prod.fst} :
    (d.insertNew k v h).get? k' = some v' ↔ d.get? k' = some v' ∨ (k' = k ∧ v' = v) := by
  simp [get?_eq_some_iff, insertNew]

theorem get?_erase_of_ne (hne : k' ≠ k) : (d.erase k).get? k' = d.get? k' := by
  ext v
  simp [get?_erase, hne]

theorem get?_erase_self : (d.erase k).get? k = none := by
  rw [Option.eq_none_iff_forall_ne_some]
  simp [get?_erase]

/-- `d[k] = v`: a key that is there keeps its place. -/
def insert (d : Dict K V) (k : K) (v : V) : Dict K V :=
  if h : k ∈ d.entries.map Prod.fst then
    ⟨d.entries.map fun e => if e.1 = k then (k, v) else e, by rw [keys_overwrite]; exact d.nodup⟩
  else d.insertNew k v h

theorem insert_of_notMem (h : k ∉ d.entries.map Prod.fst) : d.insert k v = d.insertNew k v h := dif_neg h

theorem get?_insert {v v' : V} :
    (d.insert k v).get? k' = some v' ↔ (k' = k ∧ v' = v) ∨ (k' ≠ k ∧ d.get? k' = some v') := by
  rw [insert]
  split_ifs with h
  · rw [get?_eq_some_iff, get?_eq_some_iff, mem_map]
    constructor
    · rintro ⟨e, he, heq⟩
      split_ifs at heq with hk
      · cases heq
        exact .inl ⟨rfl, rfl⟩
      · subst heq
        exact .inr ⟨hk, he⟩
    · rintro (⟨rfl, rfl⟩ | ⟨hne, hmem⟩)
      · obtain ⟨e, he, hk⟩ := mem_map.mp h
        exact ⟨e, he, if_pos hk⟩
      · exact ⟨_, hmem, if_neg hne⟩
  · rw [get?_insertNew]
    have hnone : d.get? k = none := get?_eq_none_iff.mpr h
    constructor
    · rintro (hget | hnew)
      · refine .inr ⟨?_, hget⟩
        rintro rfl
        rw [hnone] at hget
        cases hget
      · exact .inl hnew
    · rintro (hnew | hget)
      · exact .inr hnew
      · exact .inl hget.2

theorem get?_insert_of_ne (hne : k' ≠ k) : (d.insert k v).get? k' = d.get? k' := by
  ext v'
  simp [get?_insert, hne]

theorem get?_insert_self : (d.insert k v).get? k = some v := by
  simp [get?_insert]

omit [DecidableEq K] in
theorem sum_insertNew {M : Type*} [AddCommMonoid M] {h : k ∉ d.entries.map Prod.fst} (f : K × V → M) :
    ((d.insertNew k v h).entries.map f).sum = (d.entries.map f).sum + f (k, v) := by
  simp [insertNew]

theorem sum_erase {M : Type*} [AddCommMonoid M] (hk : d.get? k = some v) (f : K × V → M) :
    (d.entries.map f).sum = f (k, v) + ((d.erase k).entries.map f).sum := by
  have hmem := get?_eq_some_iff.mp hk
  obtain ⟨l, hnd⟩ := d
  simp only [erase, filter]
  clear hk
  induction l with
  | nil => simp at hmem
  | cons e l ih =>
    rw [map_cons, nodup_cons] at hnd
    rcases mem_cons.mp hmem with rfl | hmem
    · have hrest : l.filter (fun e => decide (e.1 ≠ k)) = l := by
        refine filter_eq_self.mpr fun e he => decide_eq_true fun h => hnd.1 ?_
        exact mem_map.mpr ⟨e, he, h⟩
      rw [filter_cons_of_neg (by simp), hrest, map_cons, sum_cons]
    · have hne : e.1 ≠ k := fun h => hnd.1 (mem_map.mpr ⟨_, hmem, h.symm⟩)
      rw [filter_cons_of_pos (by simpa using hne), map_cons, map_cons, sum_cons, sum_cons, ih hnd.2 hmem]
      exact add_left_comm _ _ _

/-- `d.setdefault(k, []).append(v)`. -/
def pushTo (d : Dict K (List V)) (k : K) (v : V) : Dict K (List V) :=
  match hk : d.get? k with
  | none => d.insertNew k [v] (get?_eq_none_iff.mp hk)
  | some vs => ⟨d.entries.map fun e => if e.1 = k then (k, vs ++ [v]) else e, by
      rw [map_map]
      convert d.nodup using 2
      funext e
      simp only [Function.comp_apply]
      split_ifs with h
      · exact h.symm
      · rfl⟩

theorem pushTo_perm (d : Dict K (List V)) (k : K) (v : V) :
    ((d.pushTo k v).entries.flatMap Prod.snd).Perm (v :: d.entries.flatMap Prod.snd) := by
  unfold pushTo
  split
  · simp only [insertNew, flatMap_append, flatMap_cons, flatMap_nil, append_nil]
    exact perm_append_singleton _ _
  · rename_i vs hk
    have hmem := get?_eq_some_iff.mp hk
    obtain ⟨l, hnd⟩ := d
    simp only
    clear hk
    induction l with
    | nil => simp at hmem
    | cons e l ih =>
      rw [map_cons, nodup_cons] at hnd
      rw [map_cons, flatMap_cons, flatMap_cons]
      rcases mem_cons.mp hmem with rfl | hmem
      · have hrest : l.map (fun e => if e.1 = k then (k, vs ++ [v]) else e) = l := by
          refine (map_congr_left fun e he => if_neg fun h => hnd.1 ?_).trans (map_id l)
          exact mem_map.mpr ⟨e, he, h⟩
        rw [hrest, if_pos rfl, append_assoc]
        exact perm_middle
      · have hne : e.1 ≠ k := fun h => hnd.1 (mem_map.mpr ⟨_, hmem, h.symm⟩)
        rw [if_neg hne]
        exact ((ih hnd.2 hmem).append_left _).trans perm_middle

end Dict

end MojoProse.Schemes
