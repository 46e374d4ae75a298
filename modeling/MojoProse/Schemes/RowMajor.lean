import Mathlib

/-!
# A grid numbered row by row

The cells of a grid of extents `ns` are numbered `0, 1, …` with the last axis fastest. `coord ns k d` is the coordinate
of cell `d` along axis `k`, and `moved ns k d i` the cell that differs from `d` in that coordinate only, which is `i`.
A cell is known by its coordinates (`eq_of_coord`).
-/

namespace MojoProse.Schemes.RowMajor

open List Nat

/-- The distance between neighbours along axis `k`. -/
def stride (ns : List ℕ) (k : ℕ) : ℕ := (ns.drop (k + 1)).prod

/-- The coordinate of cell `d` along axis `k`. -/
def coord (ns : List ℕ) (k d : ℕ) : ℕ := d / stride ns k % ns.getD k 1

/-- The cell with coordinate `i` along axis `k` and all other coordinates those of `d`. -/
def moved (ns : List ℕ) (k d i : ℕ) : ℕ := d - coord ns k d * stride ns k + i * stride ns k

variable {ns : List ℕ} {n k j d i : ℕ} {Z : ℕ → Prop}

@[simp] theorem stride_cons_zero : stride (n :: ns) 0 = ns.prod := rfl

@[simp] theorem stride_cons_succ : stride (n :: ns) (k + 1) = stride ns k := rfl

@[simp] theorem coord_cons_zero : coord (n :: ns) 0 d = d / ns.prod % n := rfl

@[simp] theorem coord_cons_succ : coord (n :: ns) (k + 1) d = coord ns k d := rfl

theorem stride_pos (hpos : ∀ m ∈ ns, 0 < m) : 0 < stride ns k :=
  prod_pos fun m hm => hpos m (mem_of_mem_drop hm)

theorem coord_lt (hpos : ∀ m ∈ ns, 0 < m) : coord ns k d < ns.getD k 1 := by
  refine mod_lt _ ?_
  rcases lt_or_ge k ns.length with hk | hk
  · rw [getD_eq_getElem _ _ hk]
    exact hpos _ (getElem_mem hk)
  · rw [getD_eq_default _ _ hk]
    exact one_pos

theorem stride_mul_dvd (hk : k < ns.length) : stride ns k * ns.getD k 1 ∣ ns.prod := by
  induction ns generalizing k with
  | nil => simp at hk
  | cons n ns ih =>
    cases k with
    | zero => simp [mul_comm]
    | succ k =>
      exact (ih (by simpa using hk)).mul_left n

theorem coord_add_mul (c r : ℕ) (hpos : ∀ m ∈ ns, 0 < m) : coord ns k (c * ns.prod + r) = coord ns k r := by
  rcases lt_or_ge k ns.length with hk | hk
  · obtain ⟨q, hq⟩ := stride_mul_dvd hk
    have hspl : c * ns.prod + r = r + stride ns k * (ns.getD k 1 * (c * q)) := by
      rw [hq]
      ring
    rw [coord, hspl, add_mul_div_left _ _ (stride_pos hpos), add_mul_mod_self_left, coord]
  · rw [coord, coord, getD_eq_default _ _ hk, mod_one, mod_one]

theorem coord_mod (hpos : ∀ m ∈ ns, 0 < m) : coord ns k (d % ns.prod) = coord ns k d := by
  conv_rhs => rw [← div_add_mod' d ns.prod]
  rw [coord_add_mul _ _ hpos]

theorem eq_of_coord {d' : ℕ} (hpos : ∀ m ∈ ns, 0 < m) (hd : d < ns.prod) (hd' : d' < ns.prod)
    (h : ∀ k < ns.length, coord ns k d = coord ns k d') : d = d' := by
  induction ns generalizing d d' with
  | nil =>
    simp only [prod_nil] at hd hd'
    omega
  | cons n ns ih =>
    have hpos' := forall_mem_of_forall_mem_cons hpos
    rw [prod_cons, mul_comm] at hd hd'
    have hfst := h 0 (by simp)
    rw [coord_cons_zero, coord_cons_zero, Nat.mod_eq_of_lt (Nat.div_lt_of_lt_mul hd),
      Nat.mod_eq_of_lt (Nat.div_lt_of_lt_mul hd')] at hfst
    have hrest : d % ns.prod = d' % ns.prod := by
      refine ih hpos' (mod_lt _ (prod_pos hpos')) (mod_lt _ (prod_pos hpos')) fun k hk => ?_
      rw [coord_mod hpos', coord_mod hpos']
      exact h (k + 1) (by simpa using hk)
    rw [← div_add_mod d ns.prod, ← div_add_mod d' ns.prod, hfst, hrest]

theorem coord_mul_stride_le : coord ns k d * stride ns k ≤ d :=
  (mul_le_mul_right _ (mod_le _ _)).trans (div_mul_le_self _ _)

@[simp] theorem moved_coord : moved ns k d (coord ns k d) = d := Nat.sub_add_cancel coord_mul_stride_le

theorem moved_cons_zero (hd : d < n * ns.prod) : moved (n :: ns) 0 d i = i * ns.prod + d % ns.prod := by
  have hlt : d / ns.prod < n := Nat.div_lt_of_lt_mul (by rwa [Nat.mul_comm])
  have hmod := Nat.div_add_mod' d ns.prod
  rw [moved, coord_cons_zero, stride_cons_zero, mod_eq_of_lt hlt]
  omega

theorem moved_cons_succ (hpos : ∀ m ∈ ns, 0 < m) :
    moved (n :: ns) (k + 1) d i = d / ns.prod * ns.prod + moved ns k (d % ns.prod) i := by
  have hle : coord ns k (d % ns.prod) * stride ns k ≤ d % ns.prod := coord_mul_stride_le
  have hmod := div_add_mod' d ns.prod
  rw [coord_mod hpos] at hle
  rw [moved, moved, coord_cons_succ, stride_cons_succ, coord_mod hpos]
  omega

section

variable (hpos : ∀ m ∈ ns, 0 < m) (hd : d < ns.prod) (hk : k < ns.length) (hi : i < ns.getD k 1)
include hpos hd hk hi

theorem moved_spec : moved ns k d i < ns.prod ∧ coord ns k (moved ns k d i) = i ∧
    ∀ j ≠ k, coord ns j (moved ns k d i) = coord ns j d := by
  induction ns generalizing k d with
  | nil => simp at hk
  | cons n ns ih =>
    have hpos' := forall_mem_of_forall_mem_cons hpos
    have hmod : d % ns.prod < ns.prod := mod_lt _ (prod_pos hpos')
    -- Both cases put a place below the block size into a block whose number is below `n`.
    have hblk : ∀ {c r}, c < n → r < ns.prod → c * ns.prod + r < n * ns.prod ∧ (c * ns.prod + r) / ns.prod = c := by
      intro c r hc hr
      have hle : (c + 1) * ns.prod ≤ n * ns.prod := mul_le_mul_right _ hc
      rw [add_mul, one_mul] at hle
      exact ⟨by omega, by rw [mul_comm, mul_add_div (prod_pos hpos'), div_eq_of_lt hr, add_zero]⟩
    cases k with
    | zero =>
      have hi : i < n := by simpa using hi
      obtain ⟨hlt, hfst⟩ := hblk hi hmod
      rw [moved_cons_zero hd]
      refine ⟨hlt, by rw [coord_cons_zero, hfst, mod_eq_of_lt hi], fun j hj => ?_⟩
      obtain ⟨j, rfl⟩ := exists_eq_add_one_of_ne_zero hj
      rw [coord_cons_succ, coord_add_mul _ _ hpos', coord_mod hpos', coord_cons_succ]
    | succ k =>
      obtain ⟨hin, hself, hother⟩ := ih hpos' hmod (by simpa using hk) (by simpa using hi)
      obtain ⟨hlt, hfst⟩ := hblk (c := d / ns.prod) (Nat.div_lt_of_lt_mul (by rwa [Nat.mul_comm])) hin
      rw [moved_cons_succ hpos']
      refine ⟨hlt, by rw [coord_cons_succ, coord_add_mul _ _ hpos', hself], fun j hj => ?_⟩
      cases j with
      | zero => rw [coord_cons_zero, coord_cons_zero, hfst]
      | succ j => rw [coord_cons_succ, coord_cons_succ, coord_add_mul _ _ hpos', hother j (by omega), coord_mod hpos']

theorem moved_lt : moved ns k d i < ns.prod := (moved_spec hpos hd hk hi).1

theorem coord_moved_self : coord ns k (moved ns k d i) = i := (moved_spec hpos hd hk hi).2.1

theorem coord_moved_ne (hne : j ≠ k) : coord ns j (moved ns k d i) = coord ns j d :=
  (moved_spec hpos hd hk hi).2.2 j hne

end

theorem moved_moved {i' : ℕ} (hpos : ∀ m ∈ ns, 0 < m) (hd : d < ns.prod) (hk : k < ns.length) (hi : i < ns.getD k 1)
    (hi' : i' < ns.getD k 1) : moved ns k (moved ns k d i) i' = moved ns k d i' := by
  have hd' := moved_lt hpos hd hk hi
  refine eq_of_coord hpos (moved_lt hpos hd' hk hi') (moved_lt hpos hd hk hi') fun j hj => ?_
  rcases eq_or_ne j k with rfl | hne
  · rw [coord_moved_self hpos hd' hj hi', coord_moved_self hpos hd hj hi']
  · rw [coord_moved_ne hpos hd' hk hi' hne, coord_moved_ne hpos hd hk hi hne, coord_moved_ne hpos hd hk hi' hne]

@[simp] theorem coord_zero : coord ns k 0 = 0 := by
  simp [coord]

/-- The cells that agree with `d` along every axis not in `Z`. -/
def partners (ns : List ℕ) (Z : ℕ → Prop) [DecidablePred Z] (d : ℕ) : Finset ℕ :=
  (Finset.range ns.prod).filter fun e => ∀ k < ns.length, ¬ Z k → coord ns k e = coord ns k d

theorem mem_partners [DecidablePred Z] {e : ℕ} :
    e ∈ partners ns Z d ↔ e < ns.prod ∧ ∀ k < ns.length, ¬ Z k → coord ns k e = coord ns k d := by
  simp [partners]

theorem partners_eq_singleton [DecidablePred Z] (hpos : ∀ m ∈ ns, 0 < m) (hd : d < ns.prod)
    (hZ : ∀ k < ns.length, ¬ Z k) : partners ns Z d = {d} := by
  ext e
  rw [mem_partners, Finset.mem_singleton]
  constructor
  · rintro ⟨he, hsame⟩
    exact eq_of_coord hpos he hd fun k hk => hsame k hk (hZ k hk)
  · rintro rfl
    exact ⟨hd, fun _ _ _ => rfl⟩

theorem sum_partners {M : Type*} [AddCommMonoid M] {Z' : ℕ → Prop} [DecidablePred Z] [DecidablePred Z']
    (hpos : ∀ m ∈ ns, 0 < m) (hk : k < ns.length) (hZ : ∀ j, Z j ↔ Z' j ∨ j = k) (hfree : ¬ Z' k) (f : ℕ → M) :
    ∑ e ∈ partners ns Z d, f e = ∑ e ∈ partners ns Z' d, ∑ i ∈ Finset.range (ns.getD k 1), f (moved ns k e i) := by
  rw [← Finset.sum_product' (partners ns Z' d) (Finset.range (ns.getD k 1)) fun e i => f (moved ns k e i)]
  have hback : coord ns k d < ns.getD k 1 := coord_lt hpos
  refine Finset.sum_nbij' (fun e => (moved ns k e (coord ns k d), coord ns k e)) (fun p => moved ns k p.1 p.2)
    ?_ ?_ ?_ ?_ ?_
  · intro e he
    obtain ⟨hlt, hsame⟩ := mem_partners.mp he
    refine Finset.mem_product.mpr ⟨mem_partners.mpr ⟨moved_lt hpos hlt hk hback, fun j hj hnot => ?_⟩,
      Finset.mem_range.mpr (coord_lt hpos)⟩
    rcases eq_or_ne j k with rfl | hne
    · exact coord_moved_self hpos hlt hk hback
    · rw [coord_moved_ne hpos hlt hk hback hne]
      exact hsame j hj fun h => ((hZ j).mp h).elim hnot hne
  · rintro ⟨e, i⟩ hp
    obtain ⟨he, hi⟩ := Finset.mem_product.mp hp
    obtain ⟨hlt, hsame⟩ := mem_partners.mp he
    have hi' := Finset.mem_range.mp hi
    refine mem_partners.mpr ⟨moved_lt hpos hlt hk hi', fun j hj hnot => ?_⟩
    have hne : j ≠ k := fun h => hnot ((hZ j).mpr (.inr h))
    rw [coord_moved_ne hpos hlt hk hi' hne]
    exact hsame j hj fun h => hnot ((hZ j).mpr (.inl h))
  · intro e he
    obtain ⟨hlt, -⟩ := mem_partners.mp he
    rw [moved_moved hpos hlt hk hback (coord_lt hpos), moved_coord]
  · rintro ⟨e, i⟩ hp
    obtain ⟨he, hi⟩ := Finset.mem_product.mp hp
    obtain ⟨hlt, hsame⟩ := mem_partners.mp he
    have hi' := Finset.mem_range.mp hi
    have hself : coord ns k e = coord ns k d := hsame k hk hfree
    refine Prod.ext ?_ (coord_moved_self hpos hlt hk hi')
    rw [moved_moved hpos hlt hk hi' hback, ← hself, moved_coord]
  · intro e he
    obtain ⟨hlt, -⟩ := mem_partners.mp he
    rw [moved_moved hpos hlt hk hback (coord_lt hpos), moved_coord]

end MojoProse.Schemes.RowMajor
