import Mathlib.Data.Int.Bitwise
import Mathlib.Data.List.Rotate

/-! Ring buffers: cells addressed modulo a capacity.

    All positions are integers; a cell is the one at the position's remainder, so that only windows shorter than the
    capacity have to be told apart. -/

namespace MojoProse.Schemes

/-- The cells of a buffer; an uninitialised cell is `none`. -/
abbrev Cells (α : Type) := ℕ → Option α

variable {α : Type}

namespace Cells

def write (cells : Cells α) (i : ℕ) (v : α) : Cells α := Function.update cells i (some v)

def destroy (cells : Cells α) (i : ℕ) : Cells α := Function.update cells i none

/-- Move a value; its old cell is uninitialised behind it. -/
def move (cells : Cells α) (src dst : ℕ) : Cells α :=
  Function.update (Function.update cells src none) dst (cells src)

def swap (cells : Cells α) (i j : ℕ) : Cells α := Function.update (Function.update cells j (cells i)) i (cells j)

end Cells

open Cells List Function Nat

/-- The cell of a position. -/
def wrap (cap : ℕ) (i : ℤ) : ℕ := (i % cap).toNat

/-- In a capacity that is a power of two, the cell is the position's low bits. -/
theorem land_two_pow_sub_one (i : ℤ) (k : ℕ) : (i.land (2 ^ k - 1)).toNat = wrap (2 ^ k) i := by
  have hpos : 0 < 2 ^ k := Nat.two_pow_pos k
  have hmask : (2 ^ k - 1 : ℤ) = ((2 ^ k - 1 : ℕ) : ℤ) := by
    rw [cast_sub hpos]
    simp
  rw [hmask, wrap]
  rcases i with m | m
  · have hland : Int.land (Int.ofNat m) ((2 ^ k - 1 : ℕ) : ℤ) = ((m &&& (2 ^ k - 1) : ℕ) : ℤ) := rfl
    rw [hland, and_two_pow_sub_one_eq_mod]
    rfl
  · have hland : Int.land (Int.negSucc m) ((2 ^ k - 1 : ℕ) : ℤ) = ((ldiff (2 ^ k - 1) m : ℕ) : ℤ) := rfl
    have hlt : m % 2 ^ k < 2 ^ k := Nat.mod_lt m hpos
    have hdiff : Nat.ldiff (2 ^ k - 1) m = 2 ^ k - (m % 2 ^ k + 1) := by
      refine Nat.eq_of_testBit_eq fun i => ?_
      rw [Nat.testBit_ldiff, Nat.testBit_two_pow_sub_one, Nat.testBit_two_pow_sub_succ hlt, Nat.testBit_mod_two_pow]
      rcases Nat.lt_or_ge i k with hi | hi
      · simp [hi]
      · simp [not_lt.mpr hi]
    rw [hland, hdiff, Int.negSucc_emod _ (by exact_mod_cast hpos)]
    omega

section Wrap

variable {cap : ℕ}

theorem wrap_lt (hcap : 0 < cap) (i : ℤ) : wrap cap i < cap := by
  have hlt := Int.emod_lt_of_pos i (by omega : (0 : ℤ) < cap)
  rw [wrap]
  omega

theorem wrap_of_lt {i : ℕ} (h : i < cap) : wrap cap i = i := by
  rw [wrap, Int.emod_eq_of_lt (by omega) (by omega), Int.toNat_natCast]

theorem wrap_add_cap (i : ℤ) : wrap cap (i + cap) = wrap cap i := by
  rw [wrap, Int.add_emod_right, wrap]

theorem cast_wrap (hcap : 0 < cap) (i : ℤ) : (wrap cap i : ℤ) = i % cap := by
  rw [wrap, Int.toNat_of_nonneg (Int.emod_nonneg i (by omega))]

@[simp] theorem wrap_wrap_add (hcap : 0 < cap) (i j : ℤ) : wrap cap (wrap cap i + j) = wrap cap (i + j) := by
  rw [wrap, cast_wrap hcap, Int.emod_add_emod, wrap]

theorem wrap_inj (hcap : 0 < cap) {i j : ℤ} (hlt : i < j + cap) (hgt : j < i + cap) (h : wrap cap i = wrap cap j) :
    i = j := by
  have hmod : i % cap = j % cap := by rw [← cast_wrap hcap, ← cast_wrap hcap, h]
  obtain ⟨k, hk⟩ := Int.dvd_of_emod_eq_zero (Int.emod_eq_emod_iff_emod_sub_eq_zero.mp hmod)
  have hzero : k = 0 := by
    rcases Int.lt_trichotomy k 0 with hneg | hzero | hpos
    · have : (cap : ℤ) * k ≤ cap * (-1) := Int.mul_le_mul_of_nonneg_left (by omega) (by omega)
      omega
    · exact hzero
    · have : (cap : ℤ) * 1 ≤ cap * k := Int.mul_le_mul_of_nonneg_left (by omega) (by omega)
      omega
  rw [hzero, mul_zero] at hk
  omega

theorem wrap_ne {i j : ℤ} (h : i < j + cap ∧ j < i + cap ∧ i ≠ j) : wrap cap i ≠ wrap cap j :=
  fun heq => h.2.2 (wrap_inj (by omega) h.1 h.2.1 heq)

end Wrap

section Loops

variable {cells : Cells α} {src dst : ℕ → ℕ} {x : ℕ}

theorem Cells.write_self (i : ℕ) (v : α) : cells.write i v i = some v := update_self ..

theorem Cells.write_of_ne {i j : ℕ} (v : α) (h : j ≠ i) : cells.write i v j = cells j := update_of_ne h ..

theorem Cells.destroy_of_ne {i j : ℕ} (h : j ≠ i) : cells.destroy i j = cells j := update_of_ne h ..

theorem Cells.move_self (i j : ℕ) : cells.move i j j = cells i := update_self ..

theorem Cells.move_of_ne {i j : ℕ} (hsrc : x ≠ i) (hdst : x ≠ j) : cells.move i j x = cells x := by
  rw [move, update_of_ne hdst, update_of_ne hsrc]

theorem Cells.swap_left (i j : ℕ) : cells.swap i j i = cells j := update_self ..

theorem Cells.swap_right (i j : ℕ) : cells.swap i j j = cells i := by
  rcases eq_or_ne j i with rfl | h
  · exact update_self ..
  · rw [swap, update_of_ne h, update_self]

theorem Cells.swap_of_ne {i j : ℕ} (hi : x ≠ i) (hj : x ≠ j) : cells.swap i j x = cells x := by
  rw [swap, update_of_ne hi, update_of_ne hj]

def moves (is : List ℕ) (src dst : ℕ → ℕ) (cells : Cells α) : Cells α :=
  is.foldl (fun cells i => cells.move (src i) (dst i)) cells

/-- No move destroys what another one has moved or will move. -/
def Apart (src dst : ℕ → ℕ) (is : List ℕ) : Prop :=
  is.Pairwise fun i j => dst i ≠ dst j ∧ dst i ≠ src j ∧ src i ≠ src j

theorem moves_of_ne {is : List ℕ} (h : ∀ i ∈ is, x ≠ src i ∧ x ≠ dst i) : moves is src dst cells x = cells x := by
  induction is generalizing cells with
  | nil => rfl
  | cons i is ih =>
    obtain ⟨hi, his⟩ := forall_mem_cons.mp h
    exact (ih his).trans (move_of_ne hi.1 hi.2)

theorem moves_dst {is : List ℕ} (hapart : Apart src dst is) {i : ℕ} (hi : i ∈ is) :
    moves is src dst cells (dst i) = cells (src i) := by
  induction is generalizing cells with
  | nil => cases hi
  | cons j is ih =>
    obtain ⟨hj, his⟩ := pairwise_cons.mp hapart
    rcases mem_cons.mp hi with rfl | hi
    · exact (moves_of_ne fun k hk => ⟨(hj k hk).2.1, (hj k hk).1⟩).trans (move_self _ _)
    · obtain ⟨-, hdst, hsrc⟩ := hj i hi
      exact (ih his hi).trans (move_of_ne hsrc.symm hdst.symm)

def swaps (is : List ℕ) (src dst : ℕ → ℕ) (cells : Cells α) : Cells α :=
  is.foldl (fun cells i => cells.swap (src i) (dst i)) cells

theorem swaps_of_ne {is : List ℕ} (h : ∀ i ∈ is, x ≠ src i ∧ x ≠ dst i) : swaps is src dst cells x = cells x := by
  induction is generalizing cells with
  | nil => rfl
  | cons i is ih =>
    obtain ⟨hi, his⟩ := forall_mem_cons.mp h
    exact (ih his).trans (swap_of_ne hi.1 hi.2)

theorem swaps_spec {is : List ℕ}
    (hapart : is.Pairwise fun i j => src i ≠ src j ∧ src i ≠ dst j ∧ dst i ≠ src j ∧ dst i ≠ dst j) {i : ℕ} (hi : i ∈ is) :
    swaps is src dst cells (src i) = cells (dst i) ∧ swaps is src dst cells (dst i) = cells (src i) := by
  induction is generalizing cells with
  | nil => cases hi
  | cons j is ih =>
    obtain ⟨hj, his⟩ := pairwise_cons.mp hapart
    rcases mem_cons.mp hi with rfl | hi
    · have hsrc : ∀ k ∈ is, src i ≠ src k ∧ src i ≠ dst k := fun k hk => ⟨(hj k hk).1, (hj k hk).2.1⟩
      have hdst : ∀ k ∈ is, dst i ≠ src k ∧ dst i ≠ dst k := fun k hk => (hj k hk).2.2
      exact ⟨(swaps_of_ne hsrc).trans (swap_left _ _), (swaps_of_ne hdst).trans (swap_right _ _)⟩
    · obtain ⟨hss, hsd, hds, hdd⟩ := hj i hi
      obtain ⟨hsrc, hdst⟩ := @ih (cells.swap (src j) (dst j)) his hi
      exact ⟨hsrc.trans (swap_of_ne hsd.symm hdd.symm), hdst.trans (swap_of_ne hss.symm hds.symm)⟩

def copies (n : ℕ) (src dst : ℕ → ℕ) (cells new : Cells α) : Cells α :=
  (range n).foldl (fun new i => update new (dst i) (cells (src i))) new

theorem copies_of_ne {n : ℕ} {new : Cells α} (h : ∀ i < n, x ≠ dst i) : copies n src dst cells new x = new x := by
  induction n with
  | zero => rfl
  | succ n ih =>
    rw [copies, range_succ, foldl_append]
    exact (update_of_ne (h n (lt_succ_self n)) _ _).trans (ih fun i hi => h i (lt_succ_of_lt hi))

theorem copies_dst {n i : ℕ} {new : Cells α} (hinj : ∀ i < n, ∀ j < n, dst i = dst j → i = j) (hi : i < n) :
    copies n src dst cells new (dst i) = cells (src i) := by
  induction n with
  | zero => cases hi
  | succ n ih =>
    rw [copies, range_succ, foldl_append]
    rcases Nat.lt_succ_iff_lt_or_eq.mp hi with hlt | rfl
    · have hne : dst i ≠ dst n := fun h => hlt.ne (hinj i hi n (Nat.lt_succ_self n) h)
      refine (update_of_ne hne _ _).trans (ih (fun i hi j hj => ?_) hlt)
      exact hinj i (lt_succ_of_lt hi) j (lt_succ_of_lt hj)
    · exact update_self ..

end Loops

/-- The list stands in the cells from a position on. -/
def Holds (cells : Cells α) (cap : ℕ) (head : ℤ) (l : List α) : Prop :=
  ∀ i : ℕ, i < l.length → cells (wrap cap (head + i)) = l[i]?

section Holds

variable {cells : Cells α} {cap : ℕ} {head : ℤ} {l : List α} {a : α}

theorem holds_nil : Holds cells cap head [] := fun i hi => absurd hi (not_lt_zero i)

theorem holds_wrap (hcap : 0 < cap) : Holds cells cap (wrap cap head) l ↔ Holds cells cap head l := by
  simp [Holds, wrap_wrap_add hcap]

theorem Holds.tail (h : Holds cells cap head (a :: l)) : Holds cells cap (head + 1) l := by
  intro i hi
  have hcell := h (i + 1) (succ_lt_succ hi)
  rw [getElem?_cons_succ] at hcell
  rw [← hcell]
  congr 2
  omega

theorem Holds.init (h : Holds cells cap head (l ++ [a])) : Holds cells cap head l := by
  intro i hi
  rw [h i (by rw [length_append]; omega), getElem?_append_left hi]

/-- What the window of the list does not see may change. -/
theorem Holds.congr {cells' : Cells α} (h : Holds cells cap head l)
    (hsame : ∀ i : ℕ, i < l.length → cells' (wrap cap (head + i)) = cells (wrap cap (head + i))) :
    Holds cells' cap head l :=
  fun i hi => (hsame i hi).trans (h i hi)

theorem holds_cons (hhead : cells (wrap cap head) = some a) (htail : Holds cells cap (head + 1) l) :
    Holds cells cap head (a :: l) := by
  rintro (_ | i) hi
  · simpa using hhead
  · rw [getElem?_cons_succ, ← htail i (lt_of_succ_lt_succ hi)]
    congr 2
    omega

theorem holds_append {l' : List α} (h : Holds cells cap head l) (h' : Holds cells cap (head + l.length) l') :
    Holds cells cap head (l ++ l') := by
  intro i hi
  rw [length_append] at hi
  rcases lt_or_ge i l.length with hlt | hge
  · rw [getElem?_append_left hlt, h i hlt]
  · rw [getElem?_append_right hge, ← h' (i - l.length) (by omega)]
    congr 2
    omega

theorem Holds.concat (hcap : l.length < cap) (h : Holds cells cap head l) (v : α) :
    Holds (cells.write (wrap cap (head + l.length)) v) cap head (l ++ [v]) := by
  refine holds_append (h.congr fun i hi => write_of_ne v ?_) ?_
  · exact wrap_ne (by omega)
  · rintro (_ | i) hi
    · simp [write_self]
    · simp at hi

theorem Holds.cons (hcap : l.length < cap) (h : Holds cells cap head l) (v : α) :
    Holds (cells.write (wrap cap (head - 1)) v) cap (head - 1) (v :: l) := by
  refine holds_cons (write_self _ _) ?_
  rw [sub_add_cancel]
  exact h.congr fun i hi => write_of_ne v (wrap_ne (by omega))

theorem Holds.destroy (h : Holds cells cap head l) {j : ℤ} (hbef : j < head ∨ head + l.length ≤ j)
    (hlt : j < head + cap) (hgt : head + l.length ≤ j + cap) : Holds (cells.destroy (wrap cap j)) cap head l :=
  h.congr fun i hi => destroy_of_ne (wrap_ne (by omega))

/-- Moves in a window within the capacity: what is moved stands at its new place, and no other place changes. -/
theorem moves_wrap {is : List ℕ} {src dst : ℕ → ℤ} {low : ℤ}
    (hfar : is.Pairwise fun i j => dst i ≠ dst j ∧ dst i ≠ src j ∧ src i ≠ src j)
    (hwin : ∀ i ∈ is, low ≤ src i ∧ src i < low + cap ∧ low ≤ dst i ∧ dst i < low + cap) :
    let cells' := moves is (fun i => wrap cap (src i)) (fun i => wrap cap (dst i)) cells
    (∀ i ∈ is, cells' (wrap cap (dst i)) = cells (wrap cap (src i))) ∧
      ∀ p, low ≤ p → p < low + cap → (∀ i ∈ is, p ≠ src i ∧ p ≠ dst i) → cells' (wrap cap p) = cells (wrap cap p) := by
  refine ⟨fun i hi => @moves_dst _ cells _ _ is (hfar.imp_of_mem fun {i j} hi hj hne => ?_) i hi, fun p _ _ hp => ?_⟩
  · have hi := hwin i hi
    have hj := hwin j hj
    exact ⟨wrap_ne (by omega), wrap_ne (by omega), wrap_ne (by omega)⟩
  · refine moves_of_ne fun i hi => ?_
    have hne := hp i hi
    have hi := hwin i hi
    exact ⟨wrap_ne (by omega), wrap_ne (by omega)⟩

section

variable (h : Holds cells cap head l) {idx : ℕ}
include h

/-- Make room at an index: what stands in front of it moves to the left. -/
theorem Holds.insertLeft (hcap : l.length < cap) (hidx : idx ≤ l.length) (v : α) :
    Holds ((moves (range idx) (fun i => wrap cap (head + i)) (fun i => wrap cap (head + i - 1)) cells).write
      (wrap cap (head - 1 + idx)) v) cap (head - 1) (l.insertIdx idx v) := by
  obtain ⟨hmoved, hkept⟩ := @moves_wrap _ cells cap (range idx) (fun i => head + i) (fun i => head + i - 1)
    (head - 1) (pairwise_lt_range.imp (by omega)) (by simp only [mem_range]; omega)
  simp only [mem_range] at hmoved hkept
  intro j hj
  rw [length_insertIdx_of_le_length hidx] at hj
  rw [getElem?_insertIdx]
  rcases lt_trichotomy j idx with hlt | rfl | hgt
  · have hpos : head - 1 + j = head + j - 1 := by omega
    rw [if_pos hlt, ← h j (by omega), ← hmoved j hlt, hpos]
    exact write_of_ne v (wrap_ne (by omega))
  · rw [if_neg (lt_irrefl _), if_pos rfl, if_pos hidx]
    exact write_self _ _
  · have hpos : head + (j - 1 : ℕ) = head - 1 + j := by omega
    rw [if_neg (by omega), if_neg (by omega), ← h (j - 1) (by omega), hpos, ← hkept _ (by omega) (by omega) (by omega)]
    exact write_of_ne v (wrap_ne (by omega))

/-- Make room at an index: what stands behind it moves to the right, the last element first. -/
theorem Holds.insertRight (hcap : l.length < cap) (hidx : idx ≤ l.length) (v : α) :
    Holds ((moves (range (l.length - idx)) (fun i => wrap cap (head + l.length - i - 1))
      (fun i => wrap cap (head + l.length - i)) cells).write (wrap cap (head + idx)) v) cap head (l.insertIdx idx v) := by
  obtain ⟨hmoved, hkept⟩ := @moves_wrap _ cells cap (range (l.length - idx)) (fun i => head + l.length - i - 1)
    (fun i => head + l.length - i) head (pairwise_lt_range.imp (by omega)) (by simp only [mem_range]; omega)
  simp only [mem_range] at hmoved hkept
  intro j hj
  rw [length_insertIdx_of_le_length hidx] at hj
  rw [getElem?_insertIdx]
  rcases lt_trichotomy j idx with hlt | rfl | hgt
  · rw [if_pos hlt, ← h j (by omega), ← hkept _ (by omega) (by omega) (by omega)]
    exact write_of_ne v (wrap_ne (by omega))
  · rw [if_neg (lt_irrefl _), if_pos rfl, if_pos hidx]
    exact write_self _ _
  · have hsrc : head + l.length - (l.length - j : ℕ) - 1 = head + (j - 1 : ℕ) := by omega
    have hdst : head + l.length - (l.length - j : ℕ) = head + j := by omega
    rw [if_neg (by omega), if_neg (by omega), ← h (j - 1) (by omega), ← hsrc, ← hmoved _ (by omega), hdst]
    exact write_of_ne v (wrap_ne (by omega))

/-- Close a gap: what stands in front of it moves to the right, the last element first. -/
theorem Holds.eraseLeft (hcap : l.length ≤ cap) (hidx : idx < l.length) :
    Holds (moves (range idx).reverse (fun i => wrap cap (head + i)) (fun i => wrap cap (head + i + 1))
      (cells.destroy (wrap cap (head + idx)))) cap (head + 1) (l.eraseIdx idx) := by
  obtain ⟨hmoved, hkept⟩ := @moves_wrap _ (cells.destroy (wrap cap (head + idx))) cap (range idx).reverse
    (fun i => head + i) (fun i => head + i + 1) head (pairwise_reverse.mpr (pairwise_lt_range.imp (by omega)))
    (by simp only [mem_reverse, mem_range]; omega)
  simp only [mem_reverse, mem_range] at hmoved hkept
  intro j hj
  rw [length_eraseIdx_of_lt hidx] at hj
  rw [getElem?_eraseIdx]
  rcases lt_or_ge j idx with hlt | hge
  · have hpos : head + 1 + j = head + j + 1 := by omega
    rw [if_pos hlt, ← h j (by omega), hpos, hmoved j hlt]
    exact destroy_of_ne (wrap_ne (by omega))
  · have hpos : head + 1 + j = head + (j + 1 : ℕ) := by omega
    rw [if_neg (by omega), ← h (j + 1) (by omega), hpos, hkept _ (by omega) (by omega) (by omega)]
    exact destroy_of_ne (wrap_ne (by omega))

/-- Close a gap: what stands behind it moves to the left. -/
theorem Holds.eraseRight (hcap : l.length ≤ cap) (hidx : idx < l.length) :
    Holds (moves (range' (idx + 1) (l.length - (idx + 1))) (fun i => wrap cap (head + i))
      (fun i => wrap cap (head + i - 1)) (cells.destroy (wrap cap (head + idx)))) cap head (l.eraseIdx idx) := by
  obtain ⟨hmoved, hkept⟩ := @moves_wrap _ (cells.destroy (wrap cap (head + idx))) cap
    (range' (idx + 1) (l.length - (idx + 1))) (fun i => head + i) (fun i => head + i - 1) head
    ((pairwise_lt_range' ..).imp (by omega)) (by simp only [mem_range'_1]; omega)
  simp only [mem_range'_1] at hmoved hkept
  intro j hj
  rw [length_eraseIdx_of_lt hidx] at hj
  rw [getElem?_eraseIdx]
  rcases lt_or_ge j idx with hlt | hge
  · rw [if_pos hlt, ← h j (by omega), hkept _ (by omega) (by omega) (by omega)]
    exact destroy_of_ne (wrap_ne (by omega))
  · have hpos : head + j = head + (j + 1 : ℕ) - 1 := by omega
    rw [if_neg (by omega), ← h (j + 1) (by omega), hpos, hmoved _ (by omega)]
    exact destroy_of_ne (wrap_ne (by omega))

theorem Holds.reverse (hcap : l.length ≤ cap) :
    Holds (swaps (range (l.length / 2)) (fun i => wrap cap (head + i)) (fun i => wrap cap (head + l.length - 1 - i))
      cells) cap head l.reverse := by
  intro j hj
  rw [length_reverse] at hj
  have hapart : (range (l.length / 2)).Pairwise fun (i j : ℕ) =>
      wrap cap (head + i) ≠ wrap cap (head + j) ∧ wrap cap (head + i) ≠ wrap cap (head + l.length - 1 - j) ∧
        wrap cap (head + l.length - 1 - i) ≠ wrap cap (head + j) ∧
          wrap cap (head + l.length - 1 - i) ≠ wrap cap (head + l.length - 1 - j) := by
    refine pairwise_lt_range.imp_of_mem fun {i j} hi hj hlt => ?_
    have hj := mem_range.mp hj
    exact ⟨wrap_ne (by omega), wrap_ne (by omega), wrap_ne (by omega), wrap_ne (by omega)⟩
  rw [getElem?_reverse hj, ← h (l.length - 1 - j) (by omega)]
  rcases lt_trichotomy (2 * j + 1) l.length with hfst | hmid | hsnd
  · have hswapped := (@swaps_spec _ cells _ _ _ hapart j (mem_range.mpr (by omega))).1
    have hpos : head + l.length - 1 - j = head + (l.length - 1 - j : ℕ) := by omega
    rwa [hpos] at hswapped
  · have hpos : head + j = head + (l.length - 1 - j : ℕ) := by omega
    rw [← hpos]
    refine swaps_of_ne fun i hi => ?_
    have := mem_range.mp hi
    exact ⟨wrap_ne (by omega), wrap_ne (by omega)⟩
  · have hswapped := (@swaps_spec _ cells _ _ _ hapart (l.length - 1 - j) (mem_range.mpr (by omega))).2
    have hpos : head + l.length - 1 - (l.length - 1 - j : ℕ) = head + j := by omega
    rwa [hpos] at hswapped

end

theorem Holds.rotateLeft (h : Holds cells cap head (a :: l)) (hcap : l.length + 1 < cap) :
    Holds (cells.move (wrap cap head) (wrap cap (head + 1 + l.length))) cap (head + 1) (l ++ [a]) := by
  refine holds_append (h.tail.congr fun i hi => move_of_ne ?_ ?_) ?_
  · exact wrap_ne (by omega)
  · exact wrap_ne (by omega)
  · rintro (_ | i) hi
    · have hcell := h 0 (Nat.succ_pos _)
      simp only [Nat.cast_zero, add_zero, getElem?_cons_zero] at hcell ⊢
      rw [move_self, hcell]
    · simp at hi

theorem Holds.rotateRight (h : Holds cells cap head (l ++ [a])) (hcap : l.length + 1 < cap) :
    Holds (cells.move (wrap cap (head + l.length)) (wrap cap (head - 1))) cap (head - 1) (a :: l) := by
  refine holds_cons ?_ ?_
  · rw [move_self, h l.length (by simp)]
    simp
  · rw [sub_add_cancel]
    exact h.init.congr fun i hi => move_of_ne (wrap_ne (by omega)) (wrap_ne (by omega))

end Holds

end MojoProse.Schemes
