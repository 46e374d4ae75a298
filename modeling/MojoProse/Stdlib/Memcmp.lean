import Mathlib.Algebra.Group.Nat.Defs
import Mathlib.Order.Nat

/-! `unsafe_memcmp` (`memory.mojo`) on a little-endian machine. A buffer is the sequence of its bytes from the address on;
    the elements that are compared, bytes or `UInt32`s, are the numbers that they stand for. -/

namespace MojoProse.Stdlib.Memcmp

open List

/-- The loop of the short case: `turns` elements from `i` on. -/
def compareFrom (s1 s2 : ℕ → ℕ) : ℕ → ℕ → ℤ
  | 0, _ => 0
  | turns + 1, i =>
    if s1 i ≠ s2 i then (if s1 i > s2 i then 1 else -1) else compareFrom s1 s2 turns (i + 1)

/-- `diff.select(iota, 255).reduce_min()`: the lanes are numbered by `UInt8`s. -/
def firstLane (width : ℕ) (diff : ℕ → Bool) : ℕ :=
  ((range width).map fun lane => if diff lane then lane % 256 else 255).foldl min 255

/-- The vectors at `i`; nothing if they are equal. -/
def compareBlock (width : ℕ) (s1 s2 : ℕ → ℕ) (i : ℕ) : Option ℤ :=
  let diff := fun lane => decide (s1 (i + lane) ≠ s2 (i + lane))
  if (range width).any diff then
    let index := firstLane width diff
    some (if s1 (i + index) < s2 (i + index) then -1 else 1)
  else none

/-- `for i in range(0, last, simd_width)`. -/
def compareBlocks (width last : ℕ) (s1 s2 : ℕ → ℕ) : ℕ → ℕ → Option ℤ
  | 0, _ => none
  | turns + 1, i =>
    if i < last then
      match compareBlock width s1 s2 i with
      | some result => some result
      | none => compareBlocks width last s1 s2 turns (i + width)
    else none

/-- `_memcmp_opt_impl_unconstrained`. -/
def memcmpOptImpl (width : ℕ) (s1 s2 : ℕ → ℕ) (count : ℕ) : ℤ :=
  if count < width then compareFrom s1 s2 count 0
  else
    let last := count - width
    match compareBlocks width last s1 s2 last 0 with
    | some result => result
    | none => (compareBlock width s1 s2 last).getD 0

def bytesOf (s : ℕ → UInt8) (i : ℕ) : ℕ := (s i).toNat

/-- The words of a buffer: the first byte is the least significant one. -/
def wordsOf (s : ℕ → UInt8) (i : ℕ) : ℕ :=
  (s (4 * i)).toNat + 2 ^ 8 * (s (4 * i + 1)).toNat + 2 ^ 16 * (s (4 * i + 2)).toNat + 2 ^ 24 * (s (4 * i + 3)).toNat

/-- `unsafe_memcmp` of `count` elements of `size` bytes. -/
def unsafeMemcmp (size width : ℕ) (s1 s2 : ℕ → UInt8) (count : ℕ) : ℤ :=
  let byteCount := count * size
  if size % 4 = 0 then memcmpOptImpl width (wordsOf s1) (wordsOf s2) (byteCount / 4)
  else memcmpOptImpl width (bytesOf s1) (bytesOf s2) byteCount

/-- All elements in front of `i` are equal, and those at `i` are not. -/
def FirstDifference {α : Type} (s1 s2 : ℕ → α) (i : ℕ) : Prop := (∀ j < i, s1 j = s2 j) ∧ s1 i ≠ s2 i

/-- 0 if `n` elements are equal, otherwise the order of the first that differ. -/
def Compares {α : Type} [LT α] (s1 s2 : ℕ → α) (n : ℕ) (result : ℤ) : Prop :=
  (result = 0 ↔ ∀ i < n, s1 i = s2 i) ∧
    ∀ i < n, FirstDifference s1 s2 i → (s1 i < s2 i → result = -1) ∧ (¬ s1 i < s2 i → result = 1)

def orderAt (s1 s2 : ℕ → ℕ) (i : ℕ) : ℤ := if s1 i < s2 i then -1 else 1

variable {s1 s2 : ℕ → ℕ} {width i lane : ℕ}

theorem compares_of_eq {n : ℕ} (h : ∀ i < n, s1 i = s2 i) : Compares s1 s2 n 0 :=
  ⟨iff_of_true rfl h, fun i hi hfst => absurd (h i hi) hfst.2⟩

theorem FirstDifference.unique {α : Type} {s1 s2 : ℕ → α} {j : ℕ} (hi : FirstDifference s1 s2 i)
    (hj : FirstDifference s1 s2 j) : i = j := by
  rcases Nat.lt_trichotomy i j with hlt | heq | hlt
  · exact absurd (hj.1 i hlt) hi.2
  · exact heq
  · exact absurd (hi.1 j hlt) hj.2

theorem compares_of_first {n : ℕ} (hi : i < n) (h : FirstDifference s1 s2 i) : Compares s1 s2 n (orderAt s1 s2 i) := by
  have hne : orderAt s1 s2 i ≠ 0 := by
    unfold orderAt
    split <;> decide
  refine ⟨iff_of_false hne fun hall => h.2 (hall i hi), ?_⟩
  intro j _ hj
  rw [← h.unique hj]
  exact ⟨fun hlt => if_pos hlt, fun hge => if_neg hge⟩

theorem compareFrom_spec (s1 s2 : ℕ → ℕ) {turns : ℕ} (hbef : ∀ j < i, s1 j = s2 j) :
    Compares s1 s2 (i + turns) (compareFrom s1 s2 turns i) := by
  induction turns generalizing i with
  | zero => exact compares_of_eq hbef
  | succ turns ih =>
    rw [compareFrom]
    split
    · rename_i hne
      have hres : (if s1 i > s2 i then (1 : ℤ) else -1) = orderAt s1 s2 i := by
        unfold orderAt
        split <;> split <;> omega
      rw [hres]
      exact compares_of_first (by omega) ⟨hbef, hne⟩
    · rename_i heq
      have hnext : i + (turns + 1) = i + 1 + turns := by omega
      rw [hnext]
      refine ih ?_
      intro j hj
      rcases Nat.lt_succ_iff_lt_or_eq.1 hj with hlt | rfl
      · exact hbef j hlt
      · exact not_not.1 heq

theorem foldl_min_le (l : List ℕ) (m : ℕ) : l.foldl min m ≤ m ∧ (∀ x ∈ l, l.foldl min m ≤ x) ∧
    (l.foldl min m = m ∨ l.foldl min m ∈ l) := by
  obtain ⟨hmem, hle⟩ := min?_eq_some_iff.mp (min?_cons' : (m :: l).min? = _)
  exact ⟨hle m (by simp), fun x hx => hle x (by simp [hx]), by simpa using hmem⟩

theorem firstLane_le {diff : ℕ → Bool} (hlane : lane < width) (hdiff : diff lane = true) :
    firstLane width diff ≤ lane % 256 := by
  refine (foldl_min_le _ 255).2.1 _ ?_
  exact mem_map.2 ⟨lane, mem_range.2 hlane, if_pos hdiff⟩

theorem firstLane_spec (hwidth : width ≤ 256) {diff : ℕ → Bool} (hlane : lane < width)
    (hdiff : diff lane = true) (hbef : ∀ lane' < lane, diff lane' = false) : firstLane width diff = lane := by
  have hle := firstLane_le hlane hdiff
  have hge : lane ≤ firstLane width diff := by
    rcases (foldl_min_le ((range width).map fun lane => if diff lane then lane % 256 else 255) 255).2.2 with
      heq | hmem
    · rw [firstLane]
      omega
    · obtain ⟨lane', hlane', hval⟩ := mem_map.1 hmem
      rw [firstLane, ← hval]
      have hlt := mem_range.1 hlane'
      split
      · rename_i hdiff'
        by_contra hless
        rw [hbef lane' (by omega)] at hdiff'
        cases hdiff'
      · omega
  omega

theorem compareBlock_of_lane (hlane : lane < width) (hne : s1 (i + lane) ≠ s2 (i + lane)) : compareBlock width s1 s2 i =
      some (orderAt s1 s2 (i + firstLane width fun lane => decide (s1 (i + lane) ≠ s2 (i + lane)))) := by
  rw [compareBlock, if_pos (any_eq_true.2 ⟨lane, mem_range.2 hlane, by simpa using hne⟩)]
  rfl

theorem compareBlock_spec (hwidth : width ≤ 256) (hbef : ∀ j < i, s1 j = s2 j) :
    (compareBlock width s1 s2 i = none ∧ ∀ j < i + width, s1 j = s2 j) ∨
      ∃ k < i + width, FirstDifference s1 s2 k ∧ compareBlock width s1 s2 i = some (orderAt s1 s2 k) := by
  have hequal : ∀ n, (∀ lane < n, s1 (i + lane) = s2 (i + lane)) → ∀ j < i + n, s1 j = s2 j := by
    intro n hlanes j hj
    rcases Nat.lt_or_ge j i with hlt | hge
    · exact hbef j hlt
    · have := hlanes (j - i) (by omega)
      rwa [Nat.add_sub_cancel' hge] at this
  by_cases hall : ∀ lane < width, s1 (i + lane) = s2 (i + lane)
  · refine .inl ⟨?_, hequal width hall⟩
    rw [compareBlock, if_neg (by simpa using hall)]
  · have hexists : ∃ lane, lane < width ∧ s1 (i + lane) ≠ s2 (i + lane) := by simpa using hall
    obtain ⟨hlane, hdiff⟩ := Nat.find_spec hexists
    have hmin := fun lane hlt => Nat.find_min hexists (m := lane) hlt
    generalize Nat.find hexists = lane at hlane hdiff hmin
    have hlanes : ∀ lane' < lane, s1 (i + lane') = s2 (i + lane') := fun lane' hlt =>
      by_contra fun hne => hmin lane' hlt ⟨by omega, hne⟩
    refine .inr ⟨i + lane, by omega, ⟨hequal lane hlanes, hdiff⟩, ?_⟩
    rw [compareBlock_of_lane hlane hdiff, firstLane_spec hwidth hlane (by simpa using hdiff) fun lane' hlt => by
      simpa using hlanes lane' hlt]

theorem compareBlocks_spec {last : ℕ} (hwidth : width ≤ 256) (hpos : 0 < width) (s1 s2 : ℕ → ℕ) {turns : ℕ}
    (hturns : last ≤ i + turns) (hbef : ∀ j < i, s1 j = s2 j) :
    (compareBlocks width last s1 s2 turns i = none ∧ ∀ j < last, s1 j = s2 j) ∨
      ∃ k < last + width, FirstDifference s1 s2 k ∧ compareBlocks width last s1 s2 turns i = some (orderAt s1 s2 k) := by
  induction turns generalizing i with
  | zero => exact .inl ⟨rfl, fun j hj => hbef j (by omega)⟩
  | succ turns ih =>
    rw [compareBlocks]
    split
    · rcases compareBlock_spec hwidth hbef with ⟨hblk, hequal⟩ | ⟨k, hk, hfst, hblk⟩ <;> rw [hblk]
      · exact ih (by omega) hequal
      · exact .inr ⟨k, by omega, hfst, rfl⟩
    · exact .inl ⟨rfl, fun j hj => hbef j (by omega)⟩

theorem memcmpOptImpl_spec (hwidth : width ≤ 256) (hpos : 0 < width) (s1 s2 : ℕ → ℕ) (count : ℕ) :
    Compares s1 s2 count (memcmpOptImpl width s1 s2 count) := by
  rw [memcmpOptImpl]
  split
  · have hloop : Compares s1 s2 (0 + count) (compareFrom s1 s2 count 0) := compareFrom_spec s1 s2 (by omega)
    rwa [Nat.zero_add] at hloop
  · have henough : count - width ≤ 0 + (count - width) := Nat.le_of_eq (Nat.zero_add _).symm
    rcases compareBlocks_spec hwidth hpos s1 s2 henough (by omega) with ⟨hblks, hequal⟩ | ⟨k, hk, hfst, hblks⟩ <;>
      simp only [hblks]
    · rcases compareBlock_spec hwidth hequal with ⟨hlast, hequal⟩ | ⟨k, hk, hfst, hlast⟩ <;> rw [hlast]
      · exact compares_of_eq fun j hj => hequal j (by omega)
      · exact compares_of_first (by omega) hfst
    · exact compares_of_first (by omega) hfst

theorem compares_bytes {s1 s2 : ℕ → UInt8} {n : ℕ} {res : ℤ} (h : Compares (bytesOf s1) (bytesOf s2) n res) :
    Compares s1 s2 n res := by
  have heq : ∀ i, bytesOf s1 i = bytesOf s2 i ↔ s1 i = s2 i := fun i => UInt8.toNat_inj
  refine ⟨h.1.trans ⟨fun hall i hi => (heq i).1 (hall i hi), fun hall i hi => (heq i).2 (hall i hi)⟩, ?_⟩
  intro i hi hfst
  exact h.2 i hi ⟨fun j hj => (heq j).2 (hfst.1 j hj), fun he => hfst.2 ((heq i).1 he)⟩

theorem compareBlock_of_lane_zero (hlane : lane < width) (hzero : lane % 256 = 0)
    (hne : s1 lane ≠ s2 lane) : compareBlock width s1 s2 0 = some (orderAt s1 s2 0) := by
  rw [← Nat.zero_add lane] at hne
  have hle : firstLane width (fun lane => decide (s1 (0 + lane) ≠ s2 (0 + lane))) ≤ lane % 256 :=
    firstLane_le hlane (by simpa using hne)
  rw [compareBlock_of_lane hlane hne, Nat.le_zero.1 (hle.trans hzero.le)]

theorem memcmpOptImpl_of_lane_zero {count : ℕ} (hlane : lane < width) (hle : width ≤ count)
    (hzero : lane % 256 = 0) (hne : s1 lane ≠ s2 lane) : memcmpOptImpl width s1 s2 count = orderAt s1 s2 0 := by
  have hblk := compareBlock_of_lane_zero hlane hzero hne
  rw [memcmpOptImpl, if_neg (by omega)]
  rcases Nat.eq_zero_or_pos (count - width) with hlast | hlast
  · simp only [hlast, compareBlocks, hblk]
    rfl
  · obtain ⟨turns, hturns⟩ : ∃ turns, count - width = turns + 1 := ⟨count - width - 1, by omega⟩
    simp only [hturns, compareBlocks, hblk]
    rfl

/-- The first elements decide if they differ, whatever the width. -/
theorem memcmpOptImpl_of_first {count : ℕ} (hpos : 0 < width) (hcnt : 0 < count)
    (hne : s1 0 ≠ s2 0) : memcmpOptImpl width s1 s2 count = orderAt s1 s2 0 := by
  rcases Nat.lt_or_ge count width with hlt | hge
  · obtain ⟨turns, rfl⟩ : ∃ turns, count = turns + 1 := ⟨count - 1, by omega⟩
    rw [memcmpOptImpl, compareFrom, orderAt]
    split <;> split <;> omega
  · exact memcmpOptImpl_of_lane_zero hpos hge rfl hne

def oneAt (k i : ℕ) : UInt8 := if i = k then 1 else 0

variable {size width : ℕ}

/-- As words, 1 is less than `2 ^ 8`. -/
theorem unsafeMemcmp_words (hsize : 0 < size) (hwords : size % 4 = 0) (hpos : 0 < width) :
    unsafeMemcmp size width (oneAt 0) (oneAt 1) 1 = -1 := by
  rw [unsafeMemcmp]
  simp only [hwords, if_true]
  rw [memcmpOptImpl_of_first hpos (by omega) (by decide)]
  rfl

theorem not_compares_words (hsize : 0 < size) (hwords : size % 4 = 0) (hpos : 0 < width) :
    ¬ Compares (oneAt 0) (oneAt 1) (1 * size) (unsafeMemcmp size width (oneAt 0) (oneAt 1) 1) := by
  intro h
  have hfst : FirstDifference (oneAt 0) (oneAt 1) 0 := ⟨by omega, by decide⟩
  have hright := (h.2 0 (by omega) hfst).2 (by decide)
  rw [unsafeMemcmp_words hsize hwords hpos] at hright
  cases hright

/-- Lane 256 is numbered 0, and the elements there are equal. -/
theorem unsafeMemcmp_wide (hbytes : size % 4 ≠ 0) (hwidth : 256 < width) :
    unsafeMemcmp size width (fun _ => 0) (oneAt 256) width = 1 := by
  have hle : width ≤ width * size := Nat.le_mul_of_pos_right width (by omega)
  rw [unsafeMemcmp]
  simp only [hbytes, if_false]
  rw [memcmpOptImpl_of_lane_zero hwidth hle rfl (by decide)]
  rfl

theorem not_compares_wide (hbytes : size % 4 ≠ 0) (hwidth : 256 < width) :
    ¬ Compares (fun _ => 0) (oneAt 256) (width * size) (unsafeMemcmp size width (fun _ => 0) (oneAt 256) width) := by
  intro h
  have hle : width ≤ width * size := Nat.le_mul_of_pos_right width (by omega)
  have hfst : FirstDifference (fun _ => 0) (oneAt 256) 256 := by
    refine ⟨?_, by decide⟩
    intro j hj
    exact (if_neg (by omega)).symm
  have hright := (h.2 256 (by omega) hfst).1 (by decide)
  rw [unsafeMemcmp_wide hbytes hwidth] at hright
  cases hright

end MojoProse.Stdlib.Memcmp
