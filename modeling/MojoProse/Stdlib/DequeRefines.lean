import MojoProse.Stdlib.DequeLayout

/-! `Deque` refines a bounded list. -/

namespace MojoProse.Stdlib

open Schemes BoundedList List Deque Option Nat

variable {α : Type}

def Deque.settings (d : Deque α) : ℕ × ℤ := (d.minCapacity, d.maxlen)

/-- The same buffer size and settings. -/
def Deque.Alike (d' d : Deque α) : Prop := d'.capacity = d.capacity ∧ d'.settings = d.settings

@[simp] theorem grow_settings (d : Deque α) : d.grow.settings = d.settings := by
  rw [grow]
  split_ifs <;> rfl

@[simp] theorem shrinkIfSparse_settings (d : Deque α) : d.shrinkIfSparse.settings = d.settings := by
  rw [shrinkIfSparse]
  split_ifs <;> rfl

/-- Between two operations: the list stands in the buffer and leaves a cell free; the bound holds. -/
structure Represents (bound : Option ℕ) (d : Deque α) (l : List α) : Prop where
  layout : Layout d l
  length_lt : l.length < d.capacity
  minPower : ∃ k, d.minCapacity = 2 ^ k
  maxlen : (bound = none ∧ d.maxlen = -1) ∨ ∃ m : ℕ, 0 < m ∧ bound = some m ∧ d.maxlen = m
  fits : ∀ m ∈ bound, l.length ≤ m

namespace Represents

variable {bound : Option ℕ} {d : Deque α} {l : List α}

section

variable (h : Represents bound d l)
include h

theorem len_eq : d.len = l.length := h.layout.len_eq h.length_lt

theorem head_eq_tail_iff : d.head = d.tail ↔ l = [] := by
  rw [h.layout.head_eq_tail_iff, length_eq_zero_iff]
  exact or_iff_left h.length_lt.ne

theorem next {d' : Deque α} {l' : List α} (hlay : Layout d' l' ∧ l'.length < d'.capacity)
    (hsettings : d'.settings = d.settings) (hfits : ∀ m ∈ bound, l'.length ≤ m) : Represents bound d' l' := by
  obtain ⟨hmin, hmax⟩ := Prod.mk.inj hsettings
  exact ⟨hlay.1, hlay.2, hmin ▸ h.minPower, hmax ▸ h.maxlen, hfits⟩

theorem insert_full_iff : (d.len : ℤ) = d.maxlen ↔ bound = some l.length := by
  rw [h.len_eq]
  rcases h.maxlen with ⟨hbd, hmax⟩ | ⟨m, hpos, hbd, hmax⟩
  · rw [hbd, hmax]
    exact iff_of_false (by omega) nofun
  · rw [hbd, hmax, some.injEq]
    omega

theorem full_iff : (0 < d.maxlen ∧ (d.len : ℤ) = d.maxlen) ↔ bound = some l.length := by
  rw [h.insert_full_iff, and_iff_right_iff_imp]
  rintro hfull
  rcases h.maxlen with ⟨hbd, -⟩ | ⟨m, hpos, -, hmax⟩
  · simp [hbd] at hfull
  · omega

end

end Represents

theorem keepRight_of_fits {bound : Option ℕ} {l : List α} (h : ∀ m ∈ bound, l.length ≤ m) : keepRight bound l = l := by
  rcases bound with _ | m
  · rfl
  · rw [keepRight, Nat.sub_eq_zero_of_le (h m rfl), drop_zero]

theorem keepLeft_of_fits {bound : Option ℕ} {l : List α} (h : ∀ m ∈ bound, l.length ≤ m) : keepLeft bound l = l := by
  rcases bound with _ | m
  · rfl
  · exact take_of_length_le (h m rfl)

namespace Represents

variable {bound : Option ℕ} {d : Deque α} {l : List α}

section

variable (h : Represents bound d l)
include h

theorem exists_cons_of_full (hfull : bound = some l.length) : ∃ a rest, l = a :: rest := by
  rcases h.maxlen with ⟨hbd, -⟩ | ⟨m, hpos, hbd, -⟩
  · rw [hbd] at hfull
    cases hfull
  · rw [hbd] at hfull
    rcases l with _ | ⟨a, rest⟩
    · obtain rfl := some.inj hfull
      cases hpos
    · exact ⟨a, rest, rfl⟩

theorem lt_of_not_full (hfull : bound ≠ some l.length) : ∀ m ∈ bound, l.length < m := by
  intro m hm
  refine lt_of_le_of_ne (h.fits m hm) ?_
  rintro rfl
  exact hfull hm

theorem grown {d' : Deque α} {l' : List α} (hlay : Layout d' l') (hne : l' ≠ [])
    (hsettings : d'.settings = d.settings) (hfits : ∀ m ∈ bound, l'.length ≤ m) : Represents bound d'.grow l' :=
  h.next (hlay.grow hne) ((grow_settings d').trans hsettings) hfits

theorem append (v : α) : Represents bound (d.append v) (keepRight bound (l ++ [v])) := by
  have hlt := h.length_lt
  rw [Deque.append]
  split_ifs with hcheck
  · have hfull := h.full_iff.mp hcheck
    obtain ⟨a, rest, rfl⟩ := h.exists_cons_of_full hfull
    have hkeep : keepRight bound (a :: rest ++ [v]) = rest ++ [v] := by
      simp [keepRight, hfull]
    rw [hkeep]
    exact h.grown (h.layout.dropLeft.pushRight (lt_of_succ_lt hlt) v) (by simp) rfl (by simp [hfull])
  · have hfits : ∀ m ∈ bound, (l ++ [v]).length ≤ m := by
      rw [length_append]
      exact h.lt_of_not_full fun hfull => hcheck (h.full_iff.mpr hfull)
    rw [keepRight_of_fits hfits]
    exact h.grown (h.layout.pushRight hlt v) (by simp) rfl hfits

theorem appendleft (v : α) : Represents bound (d.appendleft v) (keepLeft bound (v :: l)) := by
  have hlt := h.length_lt
  rw [Deque.appendleft]
  split_ifs with hcheck
  · have hfull := h.full_iff.mp hcheck
    obtain ⟨rest, a, rfl⟩ : ∃ rest a, l = rest ++ [a] := by
      obtain ⟨b, rest', hl⟩ := h.exists_cons_of_full hfull
      rcases eq_nil_or_concat' l with rfl | ⟨rest, a, rfl⟩
      · cases hl
      · exact ⟨rest, a, rfl⟩
    simp only [length_append, length_singleton] at hlt hfull
    have hkeep : keepLeft bound (v :: (rest ++ [a])) = v :: rest := by
      simp [keepLeft, hfull]
    rw [hkeep]
    exact h.grown (h.layout.dropRight.pushLeft (lt_of_succ_lt hlt) v) (by simp) rfl (by simp [hfull])
  · have hfits : ∀ m ∈ bound, (v :: l).length ≤ m :=
      h.lt_of_not_full fun hfull => hcheck (h.full_iff.mpr hfull)
    rw [keepLeft_of_fits hfits]
    exact h.grown (h.layout.pushLeft hlt v) (by simp) rfl hfits

end

end Represents

section Loops

variable {d : Deque α} {l : List α}

theorem dropLeft_iterate (k : ℕ) (h : Layout d l) (hk : k ≤ l.length) :
    Layout (dropLeft^[k] d) (l.drop k) ∧ (dropLeft^[k] d).Alike d := by
  induction k generalizing d l with
  | zero => exact ⟨h, rfl, rfl⟩
  | succ k ih =>
    rcases l with _ | ⟨a, l⟩
    · cases hk
    · exact ih h.dropLeft (le_of_succ_le_succ hk)

theorem dropRight_iterate (k : ℕ) (h : Layout d l) (hk : k ≤ l.length) :
    Layout (dropRight^[k] d) (l.take (l.length - k)) ∧ (dropRight^[k] d).Alike d := by
  induction k generalizing d l with
  | zero =>
    rw [Nat.sub_zero, take_length]
    exact ⟨h, rfl, rfl⟩
  | succ k ih =>
    rcases eq_nil_or_concat' l with rfl | ⟨l, a, rfl⟩
    · cases hk
    · rw [length_append, length_singleton] at hk
      rw [Function.iterate_succ_apply, length_append, length_singleton, Nat.add_sub_add_right,
        take_append_of_le_length (Nat.sub_le _ _)]
      exact ih h.dropRight (le_of_succ_le_succ hk)

theorem pushRight_foldl (values : List α) (h : Layout d l) (hlt : l.length + values.length < d.capacity) :
    Layout (values.foldl pushRight d) (l ++ values) ∧ (values.foldl pushRight d).Alike d := by
  induction values generalizing d l with
  | nil =>
    rw [append_nil]
    exact ⟨h, rfl, rfl⟩
  | cons v values ih =>
    rw [length_cons] at hlt
    have hnext := @ih (d.pushRight v) (l ++ [v]) (h.pushRight (by omega) v)
      (by rw [length_append, length_singleton]; show _ < d.capacity; omega)
    rw [append_assoc] at hnext
    exact hnext

theorem pushLeft_foldl (values : List α) (h : Layout d l) (hlt : l.length + values.length < d.capacity) :
    Layout (values.foldl pushLeft d) (values.reverse ++ l) ∧ (values.foldl pushLeft d).Alike d := by
  induction values generalizing d l with
  | nil => exact ⟨h, rfl, rfl⟩
  | cons v values ih =>
    rw [length_cons] at hlt
    have hnext := @ih (d.pushLeft v) (v :: l) (h.pushLeft (by omega) v)
      (by rw [length_cons]; show _ < d.capacity; omega)
    rw [reverse_cons, append_assoc]
    exact hnext

theorem makeBuffer (h : Layout d l) {nTotal nRetain : ℕ} (hretain : nRetain = l.length) (hle : l.length ≤ nTotal) :
    let d' := if nTotal ≥ d.capacity then d.prepareForNewElements nTotal nRetain else d
    Layout d' l ∧ nTotal < d'.capacity ∧ d'.settings = d.settings := by
  subst hretain
  split_ifs with hlarge
  · obtain ⟨hlay, hlt⟩ := h.prepareForNewElements hle
    exact ⟨hlay, hlt, rfl⟩
  · exact ⟨h, by omega, rfl⟩

end Loops

namespace Represents

variable {bound : Option ℕ} {d : Deque α} {l values : List α}

/-- How much of a total exceeds the bound. -/
def excess (bound : Option ℕ) (total : ℕ) : ℕ :=
  match bound with
  | none => 0
  | some m => total - m

/-- The counts: as much is dropped as exceeds the bound, first of the deque and then of the values. -/
theorem counts (h : Represents bound d l) (k : ℕ) : let n := d.computePopAndMoveCounts d.len k
    n.popSelf ≤ l.length ∧ n.moveSelf = l.length - n.popSelf ∧ n.popValues ≤ k ∧ n.moveValues = k - n.popValues ∧
      n.moveTotal = n.moveSelf + n.moveValues ∧ (n.popValues = 0 ∨ n.popSelf = l.length) ∧
        n.popSelf + n.popValues = excess bound (l.length + k) ∧ ∀ m ∈ bound, n.moveTotal ≤ m := by
  have hfits := h.fits
  simp only [computePopAndMoveCounts, h.len_eq]
  rcases h.maxlen with ⟨rfl, hmax⟩ | ⟨m, hpos, rfl, hmax⟩
  · have hnone : ¬(0 : ℤ) < -1 := by decide
    simp only [hmax, hnone, if_false, excess]
    simp only [not_mem_none, false_implies, implies_true, and_true]
    omega
  · simp only [hmax, Int.natCast_pos, hpos, if_true, Int.toNat_natCast, excess, mem_def, some.injEq, forall_eq']
    omega

theorem keepRight_eq {popSelf popValues : ℕ} (hself : popSelf ≤ l.length) (hord : popValues = 0 ∨ popSelf = l.length)
    (hbd : popSelf + popValues = excess bound (l.length + values.length)) :
    keepRight bound (l ++ values) = l.drop popSelf ++ values.drop popValues := by
  rcases bound with _ | m
  · obtain ⟨rfl, rfl⟩ := Nat.add_eq_zero_iff.mp hbd
    rfl
  · rw [excess] at hbd
    rw [keepRight, length_append, ← hbd, drop_append]
    rcases hord with rfl | rfl
    · rw [Nat.add_zero, Nat.sub_eq_zero_of_le hself]
    · rw [Nat.add_sub_cancel_left, drop_eq_nil_of_le (Nat.le_add_right _ _), drop_length]

theorem keepLeft_eq_reverse (l : List α) : keepLeft bound l = (keepRight bound l.reverse).reverse := by
  rcases bound with _ | m
  · exact l.reverse_reverse.symm
  · rw [keepLeft, keepRight, drop_reverse, reverse_reverse, length_reverse]
    rcases Nat.le_total m l.length with hle | hge
    · rw [Nat.sub_sub_self hle]
    · rw [take_of_length_le hge, take_of_length_le (by omega)]

theorem keepLeft_eq {popSelf popValues : ℕ} (hself : popSelf ≤ l.length) (hord : popValues = 0 ∨ popSelf = l.length)
    (hbd : popSelf + popValues = excess bound (l.length + values.length)) : keepLeft bound (values.reverse ++ l) =
      (values.drop popValues).reverse ++ l.take (l.length - popSelf) := by
  have hkeep := @keepRight_eq _ bound l.reverse values popSelf popValues (by rwa [length_reverse])
    (by rwa [length_reverse]) (by rwa [length_reverse])
  rw [keepLeft_eq_reverse, reverse_append, reverse_reverse, hkeep, reverse_append, drop_reverse, reverse_reverse]

/-- The end of `extend` and `extendleft`: the values that are left fit behind what is left of the deque. -/
theorem room_for_values {n : Counts} (hself : n.moveSelf = l.length - n.popSelf)
    (hvals : n.moveValues = values.length - n.popValues) (htotal : n.moveTotal = n.moveSelf + n.moveValues) :
    (values.drop n.popValues).take n.moveValues = values.drop n.popValues ∧
      l.length - n.popSelf + (values.drop n.popValues).length = n.moveTotal := by
  refine ⟨take_of_length_le ?_, ?_⟩ <;> rw [length_drop] <;> omega

section

variable (h : Represents bound d l)
include h

/-- The buffer is made for all elements, and `write` puts the values into it. -/
theorem written {d1 : Deque α} {kept out : List α} {n : Counts}
    {write : Deque α → Deque α} (hdropped : Layout d1 kept ∧ d1.Alike d)
    (hkept : n.moveSelf = kept.length) (htotal : n.moveTotal = n.moveSelf + n.moveValues)
    (hwrite : ∀ d2, Layout d2 kept → n.moveTotal < d2.capacity → Layout (write d2) out ∧ (write d2).Alike d2)
    (hout : out.length = n.moveTotal) (hfits : ∀ m ∈ bound, n.moveTotal ≤ m) : Represents bound
      (write (if n.moveTotal ≥ d1.capacity then d1.prepareForNewElements n.moveTotal n.moveSelf else d1)) out := by
  obtain ⟨hbuf, hlt, hsettings⟩ := @makeBuffer _ d1 kept hdropped.1 n.moveTotal _ hkept (by omega)
  obtain ⟨hlay, hcap, hsettings2⟩ := hwrite _ hbuf hlt
  refine h.next ⟨hlay, ?_⟩ (hsettings2.trans (hsettings.trans hdropped.2.2)) (by rwa [hout])
  rwa [hout, hcap]

theorem extend (values : List α) : Represents bound (d.extend values) (keepRight bound (l ++ values)) := by
  obtain ⟨hpop, hself, hskip, hvals, htotal, hord, hbd, hfits⟩ := h.counts values.length
  rw [Deque.extend, keepRight_eq hpop hord hbd]
  generalize d.computePopAndMoveCounts d.len values.length = n at *
  obtain ⟨htake, hroom⟩ := room_for_values hself hvals htotal
  rw [htake]
  refine h.written (dropLeft_iterate n.popSelf h.layout hpop) (by rw [length_drop, hself]) htotal
    (fun d2 hbuf hlt => pushRight_foldl _ hbuf ?_) ?_ hfits
  · rw [length_drop, hroom]
    exact hlt
  · rw [length_append, length_drop, hroom]

theorem extendleft (values : List α) :
    Represents bound (d.extendleft values) (keepLeft bound (values.reverse ++ l)) := by
  obtain ⟨hpop, hself, hskip, hvals, htotal, hord, hbd, hfits⟩ := h.counts values.length
  rw [Deque.extendleft, keepLeft_eq hpop hord hbd]
  generalize d.computePopAndMoveCounts d.len values.length = n at *
  obtain ⟨htake, hroom⟩ := room_for_values hself hvals htotal
  have hkept : (l.take (l.length - n.popSelf)).length = l.length - n.popSelf := by
    rw [length_take]
    omega
  rw [htake]
  refine h.written (dropRight_iterate n.popSelf h.layout hpop) (by rw [hkept, hself]) htotal
    (fun d2 hbuf hlt => pushLeft_foldl _ hbuf ?_) ?_ hfits
  · rw [hkept, hroom]
    exact hlt
  · rw [length_append, length_reverse, hkept, add_comm, hroom]

theorem cell_eq {i : ℕ} (hi : i < l.length) : d.data (d.physicalIndex (d.head + i)) = l[i]? := by
  rw [h.layout.physicalIndex_eq, h.layout.holds i hi]

theorem iterate_eq : d.iterate = l.map some := by
  rw [Deque.iterate, h.len_eq]
  refine ext_getElem (by simp) fun i hi hi' => ?_
  rw [length_map] at hi'
  rw [getElem_map, getElem_map, getElem_range, h.cell_eq hi', getElem?_eq_getElem hi']

theorem iterateReversed_eq : d.iterateReversed = l.reverse.map some := by
  rw [Deque.iterateReversed, map_reverse, ← Deque.iterate, h.iterate_eq, map_reverse]

theorem minPos : 0 < d.minCapacity := pos_of_power h.minPower

theorem shrunk {d' : Deque α} {l' : List α} (hlay : Layout d' l') (hd : d'.Alike d) (hle : l'.length ≤ l.length) :
    Represents bound d'.shrinkIfSparse l' := by
  have hlt := h.length_lt
  obtain ⟨hcap, hsettings⟩ := hd
  have hshrunk := hlay.shrinkIfSparse (by omega) ((Prod.mk.inj hsettings).1 ▸ h.minPos)
  exact h.next hshrunk ((shrinkIfSparse_settings d').trans hsettings) fun m hm => hle.trans (h.fits m hm)

theorem pop : match l.getLast? with
    | none => d.pop = .error (.raises .empty)
    | some a => ∃ d', d.pop = .ok (d', some a) ∧ Represents bound d' l.dropLast := by
  rcases eq_nil_or_concat' l with rfl | ⟨l, a, rfl⟩
  · exact if_pos (h.head_eq_tail_iff.mpr rfl)
  · rw [getLast?_concat, dropLast_concat]
    have hcell : d.data (d.physicalIndex (d.tail - 1)) = some a := by
      rw [h.layout.physicalIndex_last, h.layout.holds l.length (by simp)]
      simp
    refine ⟨_, ?_, h.shrunk h.layout.dropRight ⟨rfl, rfl⟩ (by simp)⟩
    rw [pop, if_neg fun heq => by simpa using h.head_eq_tail_iff.mp heq, hcell]

theorem popleft : match l with
    | [] => d.popleft = .error (.raises .empty)
    | a :: rest => ∃ d', d.popleft = .ok (d', some a) ∧ Represents bound d' rest := by
  rcases l with _ | ⟨a, rest⟩
  · exact if_pos (h.head_eq_tail_iff.mpr rfl)
  · have hcell : d.data d.head = some a := by
      have := h.layout.holds 0 (succ_pos _)
      rw [cast_zero, Int.add_zero, h.layout.wrap_head] at this
      exact this
    refine ⟨_, ?_, h.shrunk h.layout.dropLeft ⟨rfl, rfl⟩ (by simp)⟩
    rw [popleft, if_neg fun heq => by simpa using h.head_eq_tail_iff.mp heq, hcell]

end

theorem erase_eq_eraseIdx [DecidableEq α] {v : α} : ∀ {l : List α} {idx : ℕ}, l[idx]? = some v →
    (∀ j < idx, l[j]? ≠ some v) → l.erase v = l.eraseIdx idx
  | [], _, h, _ => by simp at h
  | a :: l, 0, h, _ => by
    obtain rfl : a = v := by simpa using h
    rw [erase_cons_head, eraseIdx_cons_zero]
  | a :: l, idx + 1, h, hfst => by
    have hne : a ≠ v := fun h => hfst 0 (succ_pos idx) (by simp [h])
    have ih := @erase_eq_eraseIdx _ v l idx h fun j hj => hfst (j + 1) (succ_lt_succ hj)
    rw [erase_cons_tail (by simpa using hne), eraseIdx_cons_succ, ih]

section

variable (h : Represents bound d l)
include h

theorem remove [DecidableEq α] (v : α) : if v ∈ l then ∃ d', d.remove v = .ok d' ∧ Represents bound d' (l.erase v)
    else d.remove v = .error (.raises .notInDeque) := by
  have hcell : ∀ j < l.length, d.data (d.physicalIndex (d.head + j)) = l[j]? := fun j hj => h.cell_eq hj
  rw [Deque.remove, h.len_eq]
  rcases hfind : (range l.length).find? fun (idx : ℕ) => d.data (d.physicalIndex (d.head + idx)) = some v with _ | idx
  · have hnot : v ∉ l := by
      intro hmem
      obtain ⟨j, hj, hv⟩ := getElem_of_mem hmem
      have := find?_eq_none.mp hfind j (mem_range.mpr hj)
      rw [hcell j hj, getElem?_eq_getElem hj, hv] at this
      simp at this
    rw [if_neg hnot]
  · obtain ⟨hv, hlt, hfst⟩ := find?_range_eq_some.mp hfind
    have hlt := mem_range.mp hlt
    have hv : l[idx]? = some v := (hcell idx hlt).symm.trans (of_decide_eq_true hv)
    have herase : l.erase v = l.eraseIdx idx := by
      refine erase_eq_eraseIdx hv fun j hj heq => ?_
      have := hfst j hj
      rw [hcell j (hj.trans hlt), heq] at this
      simp at this
    rw [if_pos (mem_of_getElem? hv), herase]
    have hsame : (d.closeGap idx).Alike d := by
      rw [closeGap]
      split_ifs <;> exact ⟨rfl, rfl⟩
    refine ⟨_, rfl, h.shrunk (h.layout.closeGap h.length_lt hlt) hsame ?_⟩
    rw [length_eraseIdx_of_lt hlt]
    exact sub_le _ _

theorem insert (hfull : bound ≠ some l.length) {idx : ℕ} (hidx : idx ≤ l.length) (v : α) :
    ∃ d', d.insert idx v = .ok d' ∧ Represents bound d' (l.insertIdx idx v) := by
  have hlen : (l.insertIdx idx v).length = l.length + 1 := length_insertIdx_of_le_length hidx v
  rw [Deque.insert, if_neg fun heq => hfull (h.insert_full_iff.mp heq), h.len_eq, if_neg (by omega), Int.toNat_natCast]
  refine ⟨_, rfl, ?_⟩
  have hsame : (d.makeRoom idx).settings = d.settings := by
    rw [makeRoom]
    split_ifs <;> rfl
  refine h.grown (h.layout.makeRoom h.length_lt hidx v) (ne_nil_of_length_eq_add_one hlen) hsame ?_
  rw [hlen]
  exact h.lt_of_not_full hfull

theorem clear : Represents bound d.clear [] :=
  h.next ⟨.empty h.minPower rfl rfl, h.minPos⟩ rfl fun m _ => zero_le m

theorem rearranged {d' : Deque α} {l' : List α} (hlay : Layout d' l') (hd : d'.Alike d)
    (hlen : l'.length = l.length) : Represents bound d' l' :=
  h.next ⟨hlay, by rw [hlen, hd.1]; exact h.length_lt⟩ hd.2 (by rw [hlen]; exact h.fits)

theorem reverse : Represents bound d.reverse l.reverse :=
  h.rearranged (h.layout.reverse h.length_lt) ⟨rfl, rfl⟩ length_reverse

theorem rotateLeft : Represents bound d.rotateLeft (l.rotate 1) :=
  h.rearranged (h.layout.rotateLeft h.length_lt) ⟨rfl, rfl⟩ (length_rotate ..)

theorem rotateRight : Represents bound d.rotateRight (l.rotate (l.length - 1)) :=
  h.rearranged (h.layout.rotateRight h.length_lt) ⟨rfl, rfl⟩ (length_rotate ..)

end

theorem rotateLeft_iterate (k : ℕ) (h : Represents bound d l) :
    Represents bound (Deque.rotateLeft^[k] d) (l.rotate k) := by
  induction k generalizing d l with
  | zero =>
    rw [rotate_zero]
    exact h
  | succ k ih =>
    have hnext := ih h.rotateLeft
    rw [rotate_rotate, add_comm] at hnext
    exact hnext

theorem rotateRight_iterate (k : ℕ) (h : Represents bound d l) :
    Represents bound (Deque.rotateRight^[k] d) (l.rotate (k * (l.length - 1))) := by
  induction k generalizing d l with
  | zero =>
    rw [zero_mul, rotate_zero]
    exact h
  | succ k ih =>
    have hnext := ih h.rotateRight
    rw [rotate_rotate, length_rotate, add_comm, ← succ_mul] at hnext
    exact hnext

end Represents

end MojoProse.Stdlib
