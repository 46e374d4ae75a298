import Mathlib

/-!
# Strided index maps in mixed radix

A list of modes, each an extent and a stride, reads an index as a number in mixed radix (the first
mode is the fastest digit) and sends it to the sum of its digits times their strides. `offset`
reduces every digit; `reach` leaves the last digit open, as an index map does that divides by all
extents but the last. The main rules: splitting a list (`offset_append`), merging two modes
(`offset_merge`), replacing every mode by modes of its own size (`offset_flatMap`), and the absence
of carries below an aligned stride (`reach_add`, `reach_sum_of_nested`).
-/

namespace MojoProse.Schemes.MixedRadix

open List Int

/-- One digit of an index: how many values it takes, and what one step of it is worth. -/
structure Mode where
  extent : ℤ
  stride : ℤ
  deriving DecidableEq, Repr

def Positive (ms : List Mode) : Prop := ∀ m ∈ ms, 0 < m.extent

def size (ms : List Mode) : ℤ := (ms.map Mode.extent).prod

/-- The value at an index, with every digit reduced. -/
def offset : List Mode → ℤ → ℤ
  | [], _ => 0
  | m :: ms, i => i % m.extent * m.stride + offset ms (i / m.extent)

/-- The value at an index, with the last digit left open. -/
def reach : List Mode → ℤ → ℤ
  | [], _ => 0
  | [m], i => i * m.stride
  | m :: m' :: ms, i => i % m.extent * m.stride + reach (m' :: ms) (i / m.extent)

/-- The digits of an index, each beside its mode. -/
def terms : List Mode → ℤ → List (Mode × ℤ)
  | [], _ => []
  | m :: ms, i => (m, i % m.extent) :: terms ms (i / m.extent)

@[simp] theorem Positive.nil : Positive [] := by
  intro m hm
  cases hm

variable {ms : List Mode}

theorem positive_cons {m : Mode} : Positive (m :: ms) ↔ 0 < m.extent ∧ Positive ms := by
  simp [Positive]

theorem positive_append {xs ys : List Mode} : Positive (xs ++ ys) ↔ Positive xs ∧ Positive ys := by
  simp [Positive, or_imp, forall_and]

@[simp] theorem size_nil : size [] = 1 := rfl

@[simp] theorem size_cons (m : Mode) (ms : List Mode) : size (m :: ms) = m.extent * size ms := by
  simp [size]

@[simp] theorem size_append (xs ys : List Mode) : size (xs ++ ys) = size xs * size ys := by
  simp [size]

theorem size_pos (h : Positive ms) : 0 < size ms := by
  induction ms with
  | nil => simp
  | cons m ms ih =>
    obtain ⟨hm, hms⟩ := positive_cons.mp h
    exact mul_pos hm (ih hms)

theorem emod_mul_ediv {n : ℤ} (hn : 0 < n) (k i : ℤ) : i % (n * k) / n = i / n % k := by
  have hi : i % (n * k) = i + n * (-(k * (i / (n * k)))) := by
    rw [emod_def]
    ring
  rw [hi, add_mul_ediv_left _ _ hn.ne', emod_def (i / n) k, ediv_ediv_of_nonneg hn.le]
  ring

theorem emod_mul_eq {n : ℤ} (hn : 0 < n) (k i : ℤ) : i % (n * k) = i % n + n * (i / n % k) := by
  have hspl := mul_ediv_add_emod (i % (n * k)) n
  rw [emod_mul_ediv hn, emod_emod_of_dvd i (dvd_mul_right n k)] at hspl
  linarith

@[simp] theorem offset_zero (ms : List Mode) : offset ms 0 = 0 := by
  induction ms with
  | nil => rfl
  | cons m ms ih => simp [offset, ih]

@[simp] theorem reach_zero (ms : List Mode) : reach ms 0 = 0 := by
  induction ms with
  | nil => rfl
  | cons m ms ih =>
    cases ms with
    | nil => simp [reach]
    | cons m' ms => simp [reach, ih]

theorem offset_eq_sum_terms (ms : List Mode) (i : ℤ) :
    offset ms i = ((terms ms i).map fun t => t.2 * t.1.stride).sum := by
  induction ms generalizing i with
  | nil => rfl
  | cons m ms ih => simp [offset, terms, ih]

theorem terms_modes (ms : List Mode) (i : ℤ) : (terms ms i).map Prod.fst = ms := by
  induction ms generalizing i with
  | nil => rfl
  | cons m ms ih => simp [terms, ih]

theorem terms_bound (h : Positive ms) (i : ℤ) : ∀ t ∈ terms ms i, 0 ≤ t.2 ∧ t.2 < t.1.extent := by
  induction ms generalizing i with
  | nil => simp [terms]
  | cons m ms ih =>
    obtain ⟨hm, hms⟩ := positive_cons.mp h
    intro t ht
    rw [terms, mem_cons] at ht
    rcases ht with rfl | ht
    · exact ⟨emod_nonneg _ hm.ne', emod_lt_of_pos _ hm⟩
    · exact ih hms _ t ht

/-- Reading through a split list: the second part sees the index without its fast digits. -/
theorem offset_append {xs : List Mode} (h : Positive xs) (ys : List Mode) (i : ℤ) :
    offset (xs ++ ys) i = offset xs i + offset ys (i / size xs) := by
  induction xs generalizing i with
  | nil => simp [offset]
  | cons m xs ih =>
    obtain ⟨hm, hxs⟩ := positive_cons.mp h
    simp only [cons_append, offset, size_cons, ih hxs, ediv_ediv_of_nonneg hm.le]
    ring

theorem offset_emod (h : Positive ms) (i : ℤ) : offset ms (i % size ms) = offset ms i := by
  induction ms generalizing i with
  | nil => rfl
  | cons m ms ih =>
    obtain ⟨hm, hms⟩ := positive_cons.mp h
    have hdig : i % (m.extent * size ms) % m.extent = i % m.extent := emod_emod_of_dvd i (dvd_mul_right _ _)
    rw [size_cons, offset, offset, hdig, emod_mul_ediv hm, ih hms]

theorem reach_eq_offset (hne : ms ≠ []) (h : Positive ms) {i : ℤ} (h0 : 0 ≤ i)
    (hi : i < size ms) : reach ms i = offset ms i := by
  induction ms generalizing i with
  | nil => exact absurd rfl hne
  | cons m ms ih =>
    obtain ⟨hm, hms⟩ := positive_cons.mp h
    cases ms with
    | nil =>
      have hlt : i < m.extent := by simpa using hi
      simp [reach, offset, emod_eq_of_lt h0 hlt]
    | cons m' ms =>
      rw [size_cons] at hi
      rw [reach, offset, ih (by simp) hms (Int.ediv_nonneg h0 hm.le) (Int.ediv_lt_of_lt_mul hm (by linarith))]

@[simp] theorem offset_unit (d : ℤ) (ms : List Mode) (i : ℤ) : offset (⟨1, d⟩ :: ms) i = offset ms i := by
  simp [offset]

theorem offset_merge {n : ℤ} (hn : 0 < n) (k d : ℤ) (ms : List Mode) (i : ℤ) :
    offset (⟨n, d⟩ :: ⟨k, n * d⟩ :: ms) i = offset (⟨n * k, d⟩ :: ms) i := by
  simp only [offset, emod_mul_eq hn, ediv_ediv_of_nonneg hn.le]
  ring

/-- Replacing every mode by modes of its own size replaces its digit's contribution. -/
theorem offset_flatMap (f : Mode → List Mode) (hf : ∀ m ∈ ms, Positive (f m))
    (hsize : ∀ m ∈ ms, size (f m) = m.extent) (i : ℤ) :
    offset (ms.flatMap f) i = ((terms ms i).map fun t => offset (f t.1) t.2).sum := by
  induction ms generalizing i with
  | nil => rfl
  | cons m ms ih =>
    have hm := hf m (by simp)
    have hsm := hsize m (by simp)
    rw [flatMap_cons, offset_append hm, hsm, terms, map_cons, sum_cons,
      ih (forall_mem_cons.mp hf).2 (forall_mem_cons.mp hsize).2]
    rw [← offset_emod hm i, hsm]

theorem size_flatMap (f : Mode → List Mode)
    (hsize : ∀ m ∈ ms, size (f m) = m.extent) : size (ms.flatMap f) = size ms := by
  induction ms with
  | nil => rfl
  | cons m ms ih =>
    rw [flatMap_cons, size_append, size_cons, hsize m (by simp), ih (forall_mem_cons.mp hsize).2]

/-- A product of the first extents times a divisor of the next one; the last digit is open, so there anything goes. -/
def Aligned : List Mode → ℤ → Prop
  | m :: m' :: ms, r => (m.extent ∣ r ∧ Aligned (m' :: ms) (r / m.extent)) ∨ r ∣ m.extent
  | _, _ => True

/-- Steps of an aligned stride cause no carry out of the digits below it. -/
theorem reach_add (h : Positive ms) {r : ℤ} (hr : 0 < r) (hal : Aligned ms r)
    {y : ℤ} (h0 : 0 ≤ y) (hy : y < r) (i : ℤ) : reach ms (y + r * i) = reach ms y + reach ms (r * i) := by
  induction ms generalizing r y i with
  | nil => rfl
  | cons m ms ih =>
    obtain ⟨hm, hms⟩ := positive_cons.mp h
    cases ms with
    | nil =>
      simp only [reach]
      ring
    | cons m' ms =>
      simp only [reach]
      rcases hal with ⟨⟨q, rfl⟩, hal⟩ | ⟨t, ht⟩
      · -- the stride is a multiple of the extent: this digit is that of the small part
        have hq : 0 < q := pos_of_mul_pos_right hr hm.le
        rw [mul_ediv_cancel_left _ hm.ne'] at hal
        have hsum : y + m.extent * q * i = y + m.extent * (q * i) := by ring
        rw [hsum, mul_assoc, add_mul_emod_self_left, add_mul_ediv_left _ _ hm.ne',
          Int.mul_emod_right, Int.mul_ediv_cancel_left _ hm.ne',
          ih hms hq hal (Int.ediv_nonneg h0 hm.le) (Int.ediv_lt_of_lt_mul hm (by linarith))]
        ring
      · -- the stride divides the extent: the small part stays below it inside this digit
        have htpos : 0 < t := by
          rw [ht] at hm
          exact pos_of_mul_pos_right hm hr.le
        have hi : r * i = r * (i % t) + m.extent * (i / t) := by
          rw [ht]
          linear_combination r * (mul_ediv_add_emod i t).symm
        have hlow : 0 ≤ r * (i % t) := mul_nonneg hr.le (emod_nonneg _ htpos.ne')
        have hfit : y + r * (i % t) < m.extent := by
          have hlast : i % t + 1 ≤ t := emod_lt_of_pos i htpos
          have hstep : r * (i % t + 1) ≤ r * t := mul_le_mul_of_nonneg_left hlast hr.le
          linarith [mul_add r (i % t) 1]
        have hsum : y + r * i = y + r * (i % t) + m.extent * (i / t) := by rw [hi, add_assoc]
        rw [hsum, hi, add_mul_emod_self_left, add_mul_ediv_left _ _ hm.ne',
          add_mul_emod_self_left, add_mul_ediv_left _ _ hm.ne',
          emod_eq_of_lt (add_nonneg h0 hlow) hfit, emod_eq_of_lt hlow (by linarith),
          emod_eq_of_lt h0 (by linarith), ediv_eq_zero_of_lt (add_nonneg h0 hlow) hfit,
          ediv_eq_zero_of_lt hlow (by linarith), ediv_eq_zero_of_lt h0 (by linarith),
          reach_zero]
        ring

/-- Terms each of whose strides is a multiple of all that comes before add up digit by digit. -/
theorem reach_sum_of_chain (h : Positive ms) (ts : List (Mode × ℤ)) (hbd : ∀ t ∈ ts, 0 ≤ t.2 ∧ t.2 < t.1.extent)
    (hstride : ∀ t ∈ ts, 0 < t.1.stride ∧ Aligned ms t.1.stride)
    (hchain : ts.IsChain fun t u => t.1.extent * t.1.stride ∣ u.1.stride)
    {y : ℤ} (h0 : 0 ≤ y) (hy : ∀ t ∈ ts.head?, y < t.1.stride) : reach ms (y + (ts.map fun t => t.2 * t.1.stride).sum) =
      reach ms y + (ts.map fun t => reach ms (t.2 * t.1.stride)).sum := by
  -- `y` collects the terms already added; it stays below the next stride
  induction ts generalizing y with
  | nil => simp
  | cons t ts ih =>
    obtain ⟨hlow, hhigh⟩ := hbd t (by simp)
    obtain ⟨hpos, hal⟩ := hstride t (by simp)
    obtain ⟨hhead, hchain⟩ := isChain_cons.mp hchain
    have hyt : y < t.1.stride := hy t (by simp)
    have hstep : t.1.stride * t.2 + t.1.stride ≤ t.1.extent * t.1.stride := by
      have hdig : t.2 + 1 ≤ t.1.extent := hhigh
      linarith [mul_le_mul_of_nonneg_right hdig hpos.le]
    have hnext : ∀ u ∈ ts.head?, y + t.1.stride * t.2 < u.1.stride := by
      intro u hu
      have hupos := (hstride u (mem_cons_of_mem _ (mem_of_mem_head? hu))).1
      have hle := le_of_dvd hupos (hhead u hu)
      linarith
    have hrest := ih (forall_mem_cons.mp hbd).2 (forall_mem_cons.mp hstride).2
      hchain (add_nonneg h0 (mul_nonneg hpos.le hlow)) hnext
    rw [map_cons, sum_cons, map_cons, sum_cons, mul_comm t.2, ← add_assoc, hrest, reach_add h hpos hal h0 hyt]
    ring

/-- The modes that move an index at all. -/
def active (m : Mode) : Bool := 1 < m.extent && 0 < m.stride

/-- The moving modes by stride, each stride a multiple of the range of the mode before it. -/
def Nested (ms : List Mode) : Prop :=
  ((ms.filter active).mergeSort fun p q => p.stride ≤ q.stride).IsChain
    fun p q => p.extent * p.stride ∣ q.stride

theorem sum_filter_of_zero {α : Type*} (p : α → Bool) (f : α → ℤ) (l : List α)
    (h : ∀ a ∈ l, p a = false → f a = 0) : ((l.filter p).map f).sum = (l.map f).sum := by
  induction l with
  | nil => rfl
  | cons a l ih =>
    have ih := ih (forall_mem_cons.mp h).2
    cases hp : p a with
    | true => simp [hp, ih]
    | false => simp [hp, ih, h a (by simp) hp]

theorem term_eq_zero {t : Mode × ℤ} (hbd : 0 ≤ t.2 ∧ t.2 < t.1.extent) (hstride : 0 ≤ t.1.stride)
    (hidle : active t.1 = false) : t.2 * t.1.stride = 0 := by
  rcases hstride.eq_or_lt with h | h
  · rw [← h, mul_zero]
  · have hext : t.1.extent ≤ 1 := by simpa [active, h] using hidle
    have hdig : t.2 = 0 := by omega
    rw [hdig, zero_mul]

/-- Over nested modes with aligned strides an index map takes a sum of terms to the sum of its
values. -/
theorem reach_sum_of_nested (h : Positive ms) (ts : List (Mode × ℤ)) (hbd : ∀ t ∈ ts, 0 ≤ t.2 ∧ t.2 < t.1.extent)
    (hstride : ∀ t ∈ ts, 0 ≤ t.1.stride ∧ (0 < t.1.stride → Aligned ms t.1.stride))
    (hnested : Nested (ts.map Prod.fst)) : reach ms (ts.map fun t => t.2 * t.1.stride).sum =
      (ts.map fun t => reach ms (t.2 * t.1.stride)).sum := by
  have hzero : ∀ t ∈ ts, active t.1 = false → t.2 * t.1.stride = 0 := fun t ht hidle =>
    term_eq_zero (hbd t ht) (hstride t ht).1 hidle
  let moving := ts.filter fun t => active t.1
  let ordered := moving.mergeSort fun t u => t.1.stride ≤ u.1.stride
  have hperm : ordered.Perm moving := mergeSort_perm _ _
  have hmem : ∀ t ∈ ordered, t ∈ ts ∧ active t.1 = true := fun t ht =>
    mem_filter.mp (hperm.subset ht)
  have hchain : ordered.IsChain fun t u => t.1.extent * t.1.stride ∣ u.1.stride := by
    have hmap : ordered.map Prod.fst =
        ((ts.map Prod.fst).filter active).mergeSort fun p q => p.stride ≤ q.stride := by
      rw [filter_map]
      exact map_mergeSort fun t _ u _ => rfl
    rw [Nested, ← hmap, isChain_map] at hnested
    exact hnested
  have hpos : ∀ t ∈ ordered, 0 < t.1.stride := fun t ht => by
    have hact := (hmem t ht).2
    simp only [active, Bool.and_eq_true, decide_eq_true_eq] at hact
    exact hact.2
  have hsum := reach_sum_of_chain h ordered (fun t ht => hbd t (hmem t ht).1)
    (fun t ht => ⟨hpos t ht, (hstride t (hmem t ht).1).2 (hpos t ht)⟩) hchain le_rfl
    (fun t ht => hpos t (mem_of_mem_head? ht))
  rw [zero_add, reach_zero, zero_add, (hperm.map _).sum_eq, (hperm.map _).sum_eq] at hsum
  rw [← sum_filter_of_zero (fun t => active t.1) _ ts hzero, hsum]
  exact sum_filter_of_zero _ _ ts fun t ht hidle => by rw [hzero t ht hidle, reach_zero]

end MojoProse.Schemes.MixedRadix
