import Mathlib

/-!
# Tensors: a shape and an entry at every index inside it

An index is a list of coordinates, one for each axis. The operations are those that move entries without looking at
them: a stretch of one axis (`narrow`), a cut of one axis into stretches (`pieces`) and tensors put one after the other
along an axis (`join`, and `concat` where the shapes may not fit). `onLines` works on the lines of one axis, each by
itself, and so commutes with cuts of the other axes (`onLines_narrow`).
-/

namespace MojoProse.Schemes

open List

/-- The coordinate of an index, or the extent of a shape, along one axis. -/
def along (l : List ℕ) (a : ℕ) : ℕ := l.getD a 0

variable {l : List ℕ} {a : ℕ}

theorem along_eq_getElem (ha : a < l.length) : along l a = l[a] := getD_eq_getElem _ _ ha

@[simp] theorem along_cons_zero (x : ℕ) (l : List ℕ) : along (x :: l) 0 = x := rfl

@[simp] theorem along_cons_succ (x : ℕ) (l : List ℕ) (a : ℕ) : along (x :: l) (a + 1) = along l a := rfl

theorem along_set_self (ha : a < l.length) (x : ℕ) : along (l.set a x) a = x := by
  rw [along_eq_getElem (by simpa using ha), getElem_set_self]

@[simp] theorem along_set_ne {a b : ℕ} (h : a ≠ b) (x : ℕ) : along (l.set a x) b = along l b := by
  simp [along, getElem?_set_ne h]

theorem eq_of_along {l m : List ℕ} (hlen : l.length = m.length) (h : ∀ a < l.length, along l a = along m a) :
    l = m := by
  refine ext_getElem hlen fun a ha hb => ?_
  rw [← along_eq_getElem ha, ← along_eq_getElem hb, h a ha]

theorem set_along_self (l : List ℕ) (a : ℕ) : l.set a (along l a) = l := by
  refine eq_of_along (by simp) fun b hb => ?_
  rw [length_set] at hb
  rcases eq_or_ne a b with rfl | hne
  · rw [along_set_self hb]
  · rw [along_set_ne hne]

theorem sum_along (l : List ℕ) (n : ℕ) : ∑ a ∈ Finset.range n, along l a = (l.take n).sum := by
  induction n with
  | zero => simp
  | succ n ih =>
    rw [Finset.sum_range_succ, ih, take_add_one, sum_append, along, getD_eq_getElem?_getD]
    cases l[n]? <;> simp

/-- One coordinate for every axis, each below the axis's extent. -/
def Inside (i shape : List ℕ) : Prop := Forall₂ (· < ·) i shape

instance (i shape : List ℕ) : Decidable (Inside i shape) :=
  inferInstanceAs (Decidable (Forall₂ _ _ _))

variable {i shape : List ℕ}

theorem inside_iff : Inside i shape ↔ i.length = shape.length ∧ ∀ a < shape.length, along i a < along shape a := by
  rw [Inside, forall₂_iff_get]
  refine and_congr_right fun hlen => ?_
  constructor
  · intro h a ha
    rw [along_eq_getElem ha, along_eq_getElem (hlen ▸ ha)]
    exact h a _ ha
  · intro h a hi ha
    have hlt := h a ha
    rwa [along_eq_getElem ha, along_eq_getElem hi] at hlt

theorem Inside.length_eq (h : Inside i shape) : i.length = shape.length := (inside_iff.mp h).1

theorem Inside.along_lt (h : Inside i shape) (ha : a < shape.length) : along i a < along shape a :=
  (inside_iff.mp h).2 a ha

theorem Inside.set (h : Inside i shape) {a x d : ℕ} (hx : x < d) : Inside (i.set a x) (shape.set a d) := by
  refine inside_iff.mpr ⟨by simp [h.length_eq], fun b hb => ?_⟩
  rw [length_set] at hb
  rcases eq_or_ne a b with rfl | hne
  · rwa [along_set_self (by rwa [h.length_eq]), along_set_self hb]
  · rw [along_set_ne hne, along_set_ne hne]
    exact h.along_lt hb

/-- In blocks of the given sizes laid one after the other: the block a position is in, and its place there. -/
def locate : List ℕ → ℕ → ℕ × ℕ
  | [], x => (0, x)
  | l :: ls, x => if x < l then (0, x) else ((locate ls (x - l)).1 + 1, (locate ls (x - l)).2)

theorem locate_spec {ls : List ℕ} {x : ℕ} (hx : x < ls.sum) :
    (locate ls x).1 < ls.length ∧ (locate ls x).2 < along ls (locate ls x).1 ∧
      (ls.take (locate ls x).1).sum + (locate ls x).2 = x := by
  induction ls generalizing x with
  | nil => simp at hx
  | cons l ls ih =>
    rw [sum_cons] at hx
    simp only [locate]
    split
    next hlt => exact ⟨by simp, by simpa using hlt, by simp⟩
    next hge =>
      obtain ⟨hblk, hplace, hsum⟩ := ih (x := x - l) (by omega)
      refine ⟨by simpa using hblk, by simpa using hplace, ?_⟩
      rw [take_succ_cons, sum_cons]
      omega

/-- A shape, and an entry at each index inside it. -/
structure Tensor (R : Type*) where
  shape : List ℕ
  entry : (i : List ℕ) → Inside i shape → R

namespace Tensor

variable {R : Type*}

theorem ext_entry {x y : Tensor R} (hshape : x.shape = y.shape)
    (hent : ∀ i (hx : Inside i x.shape) (hy : Inside i y.shape), x.entry i hx = y.entry i hy) : x = y := by
  obtain ⟨xs, xe⟩ := x
  obtain ⟨ys, ye⟩ := y
  obtain rfl : xs = ys := hshape
  simp only [mk.injEq, heq_eq_eq, true_and]
  funext i h
  exact hent i h h

def rank (t : Tensor R) : ℕ := t.shape.length

def extent (t : Tensor R) (a : ℕ) : ℕ := along t.shape a

/-- The stretch of `len` positions of axis `a` from `lo` on, or what there is of it. -/
def narrow (t : Tensor R) (a lo len : ℕ) : Tensor R where
  shape := t.shape.set a (min len (t.extent a - lo))
  entry i h := t.entry (i.set a (lo + along i a)) <| by
    have hlen : i.length = t.shape.length := by simpa using h.length_eq
    rcases Nat.lt_or_ge a t.shape.length with ha | ha
    · have hlt := h.along_lt (by simpa using ha)
      rw [along_set_self ha] at hlt
      have hset := h.set (a := a) (x := lo + along i a) (d := t.extent a) (by omega)
      rwa [set_set, extent, set_along_self] at hset
    · rw [set_eq_of_length_le (by omega)]
      rwa [set_eq_of_length_le ha] at h

/-- Axis `a` cut from `lo` on into stretches of the given sizes. -/
def pieces (t : Tensor R) (a : ℕ) : ℕ → List ℕ → List (Tensor R)
  | _, [] => []
  | lo, size :: sizes => t.narrow a lo size :: t.pieces a (lo + size) sizes

@[simp] theorem length_pieces (t : Tensor R) (a lo : ℕ) (sizes : List ℕ) :
    (t.pieces a lo sizes).length = sizes.length := by
  induction sizes generalizing lo with
  | nil => rfl
  | cons size sizes ih => rw [pieces, length_cons, ih, length_cons]

theorem getElem?_pieces (t : Tensor R) (a lo : ℕ) {sizes : List ℕ} {p : ℕ} (hp : p < sizes.length) :
    (t.pieces a lo sizes)[p]? = some (t.narrow a (lo + (sizes.take p).sum) (along sizes p)) := by
  induction sizes generalizing lo p with
  | nil => simp at hp
  | cons size sizes ih =>
    cases p with
    | zero => simp [pieces]
    | succ p =>
      rw [pieces, getElem?_cons_succ, ih _ (by simpa using hp), take_succ_cons, sum_cons,
        along_cons_succ, Nat.add_assoc]

/-- The shape of the first of some tensors. -/
def headShape : List (Tensor R) → List ℕ
  | [] => []
  | t :: _ => t.shape

/-- There are tensors to put together, they have the axis, and they agree along every other one. -/
def Joinable (a : ℕ) (ts : List (Tensor R)) : Prop :=
  a < (headShape ts).length ∧ ∀ t ∈ ts, t.shape.set a 0 = (headShape ts).set a 0

instance (a : ℕ) (ts : List (Tensor R)) : Decidable (Joinable a ts) :=
  inferInstanceAs (Decidable (_ ∧ _))

variable {ts : List (Tensor R)} {t : Tensor R}

theorem Joinable.shape_eq (h : Joinable a ts) (ht : t ∈ ts) : t.shape = (headShape ts).set a (t.extent a) := by
  have hset := congrArg (fun l => l.set a (t.extent a)) (h.2 t ht)
  simpa [extent, set_along_self] using hset

def join (a : ℕ) (ts : List (Tensor R)) (h : Joinable a ts) : Tensor R where
  shape := (headShape ts).set a (ts.map fun t => t.extent a).sum
  entry i hi :=
    have hat : along i a < (ts.map fun t => t.extent a).sum := by
      have hlt := hi.along_lt (a := a) (by simpa using h.1)
      rwa [along_set_self h.1] at hlt
    have hblock : (locate (ts.map fun t => t.extent a) (along i a)).1 < ts.length := by
      simpa using (locate_spec hat).1
    (ts.get ⟨_, hblock⟩).entry (i.set a (locate (ts.map fun t => t.extent a) (along i a)).2) <| by
      have hplace := (locate_spec hat).2.1
      rw [along_eq_getElem (l := ts.map fun t => t.extent a) (by simpa using hblock), getElem_map] at hplace
      have hset := hi.set (a := a) hplace
      rwa [set_set, ← h.shape_eq (getElem_mem hblock)] at hset

@[simp] theorem join_shape (h : Joinable a ts) :
    (join a ts h).shape = (headShape ts).set a (ts.map fun t => t.extent a).sum :=
  rfl

/-- The tensors one after the other along axis `a`, if their shapes fit. -/
def concat (a : ℕ) (ts : List (Tensor R)) : Option (Tensor R) :=
  if h : Joinable a ts then some (join a ts h) else none

theorem concat_of_joinable (h : Joinable a ts) : concat a ts = some (join a ts h) := dif_pos h

theorem join_entry (h : Joinable a ts) {i : List ℕ} (hi : Inside i (join a ts h).shape)
    {p q : ℕ} (hlocate : locate (ts.map fun t => t.extent a) (along i a) = (p, q))
    (ht : ts[p]? = some t) : ∃ hq : Inside (i.set a q) t.shape, (join a ts h).entry i hi = t.entry (i.set a q) hq := by
  obtain ⟨hp, rfl⟩ := List.getElem?_eq_some_iff.mp ht
  obtain rfl : (locate (ts.map fun t => t.extent a) (along i a)).1 = p := by rw [hlocate]
  obtain rfl : (locate (ts.map fun t => t.extent a) (along i a)).2 = q := by rw [hlocate]
  exact ⟨_, rfl⟩

theorem narrow_entry (t : Tensor R) (a lo len : ℕ) {i : List ℕ} (hi : Inside i (t.narrow a lo len).shape) :
    ∃ hj : Inside (i.set a (lo + along i a)) t.shape,
      (t.narrow a lo len).entry i hi = t.entry (i.set a (lo + along i a)) hj :=
  ⟨_, rfl⟩

theorem inside_line (t : Tensor R) {m k : ℕ} (hi : Inside i (t.shape.set a m)) (hk : k < t.extent a) :
    Inside (i.set a k) t.shape := by
  have hset := hi.set (a := a) hk
  rwa [set_set, extent, set_along_self] at hset

section Lines

variable [Zero R]

def read (t : Tensor R) (i : List ℕ) : R := if h : Inside i t.shape then t.entry i h else 0

theorem read_eq (t : Tensor R) (h : Inside i t.shape) : t.read i = t.entry i h := dif_pos h

theorem ext_read {x y : Tensor R} (hshape : x.shape = y.shape) (h : ∀ i, Inside i x.shape → x.read i = y.read i) :
    x = y := by
  refine ext_entry hshape fun i hx hy => ?_
  rw [← x.read_eq hx, ← y.read_eq hy, h i hx]

theorem read_narrow (t : Tensor R) {lo len : ℕ} (hi : Inside i (t.narrow a lo len).shape) :
    (t.narrow a lo len).read i = t.read (i.set a (lo + along i a)) := by
  obtain ⟨hj, heq⟩ := t.narrow_entry a lo len hi
  rw [read_eq _ hi, heq, read_eq]

theorem read_join (h : Joinable a ts) (hi : Inside i (join a ts h).shape) {p q : ℕ}
    (hlocate : locate (ts.map fun t => t.extent a) (along i a) = (p, q)) (ht : ts[p]? = some t) :
    Inside (i.set a q) t.shape ∧ (join a ts h).read i = t.read (i.set a q) := by
  obtain ⟨hq, heq⟩ := join_entry h hi hlocate ht
  exact ⟨hq, by rw [read_eq _ hi, heq, read_eq]⟩

/-- The entries along axis `a` through an index. -/
def line (t : Tensor R) (a : ℕ) (i : List ℕ) : List R := (range (t.extent a)).map fun k => t.read (i.set a k)

/-- Every line of axis `a` replaced by what `run` makes of it; a line of `m` entries becomes one of `size m`. -/
def onLines (size : ℕ → ℕ) (run : List R → List R) (a : ℕ) (t : Tensor R) : Tensor R where
  shape := t.shape.set a (size (t.extent a))
  entry i _ := (run (t.line a i)).getD (along i a) 0

variable {size : ℕ → ℕ} {run : List R → List R}

theorem read_onLines (t : Tensor R) (hi : Inside i (t.onLines size run a).shape) :
    (t.onLines size run a).read i = (run (t.line a i)).getD (along i a) 0 :=
  read_eq _ hi

/-- Lines along one axis do not change when another is narrowed. -/
theorem onLines_narrow (t : Tensor R) {a d : ℕ} (hne : d ≠ a) (lo len : ℕ) :
    (t.narrow d lo len).onLines size run a = (t.onLines size run a).narrow d lo len := by
  have hext : (t.narrow d lo len).extent a = t.extent a := along_set_ne hne _
  have hkept : (t.onLines size run a).extent d = t.extent d := along_set_ne hne.symm _
  have hshape : ((t.narrow d lo len).onLines size run a).shape = ((t.onLines size run a).narrow d lo len).shape := by
    simp only [onLines, narrow] at hext hkept ⊢
    rw [hext, hkept, set_comm _ _ hne]
  refine ext_read hshape fun i hi => ?_
  have hline : (t.narrow d lo len).line a i = t.line a (i.set d (lo + along i d)) := by
    rw [line, line, hext]
    refine map_congr_left fun k hk => ?_
    have hk' : k < (t.narrow d lo len).extent a := hext ▸ mem_range.mp hk
    rw [read_narrow _ (inside_line _ hi hk'), along_set_ne hne.symm, set_comm _ _ hne]
  have hi' := hshape ▸ hi
  obtain ⟨hj, -⟩ := narrow_entry (t.onLines size run a) d lo len hi'
  rw [read_onLines _ hi, read_narrow _ hi', read_onLines _ hj, hline, along_set_ne hne]

end Lines

end Tensor

end MojoProse.Schemes
