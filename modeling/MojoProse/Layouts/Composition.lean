import MojoProse.Layouts.Layout

/-!
# Composition of layouts

`composition(A, B)` distributes over the modes of `B`; a single mode `n:r` is peeled against the
flattened modes of `A` by a loop of rounded divisions and the result is coalesced. `Composable` says
exactly when the loop loses nothing (`right_iff`): `shape_div` is called without its check, so
a division that is not exact goes through silently and the result is some other layout.
-/

namespace MojoProse.Layouts

open Layout Int

open Schemes
open Schemes.MixedRadix hiding size

/-- `shape_div` on two integers, as `composition` calls it: without the check that one divides the
other. -/
def shapeDiv (a b : ℤ) : ℤ :=
  if a = unknownValue ∨ b = unknownValue then unknownValue
  else if a.fmod b = 0 then a.fdiv b
  else (a * b).sign

/-- `tuple_min` on two integers. -/
def tupleMin (a b : ℤ) : ℤ :=
  if a = unknownValue ∨ b = unknownValue then unknownValue else min a b

/-- `mul` on two integers. -/
def mulKnown (a b : ℤ) : ℤ :=
  if a = unknownValue ∨ b = unknownValue then unknownValue else a * b

/-- The loop of `coalesce` with `last` the entry it may still change; the entries before it are
final. -/
def coalesceFrom (last : Mode) : List Mode → List Mode
  | [] => [last]
  | m :: ms =>
    if m.extent = 1 then coalesceFrom last ms
    else if last.extent = 1 then coalesceFrom m ms
    else if last.extent * last.stride = m.stride ∧
        unknownValue ∉ [m.extent, m.stride, last.extent, last.stride] then
      coalesceFrom ⟨last.extent * m.extent, last.stride⟩ ms
    else last :: coalesceFrom m ms

/-- The layout of the entries `coalesce` ends with. -/
def ofModes : List Mode → Layout
  | [m] => .mode m.extent m.stride
  | ms => .modes (ms.map fun m => .mode m.extent m.stride)

/-- `coalesce(layout)`. -/
def coalesce (ms : List Mode) : Layout := ofModes (coalesceFrom ⟨1, 0⟩ ms)

/-- `coalesce(layout, keep_rank=True)`: every mode on its own. -/
def coalesceModes (l : Layout) : Layout :=
  match l.items with
  | [k] => coalesce k.flat
  | ks => .modes (ks.map fun k => coalesce k.flat)

/-- The loop of `composition` over the modes of `A`, the last of which takes what remains. -/
def peel : List Mode → ℤ → ℤ → List Mode
  | [], _, _ => []
  | [m], restShape, restStride => [⟨restShape, mulKnown restStride m.stride⟩]
  | m :: m' :: ms, restShape, restStride =>
    let s1 := shapeDiv m.extent restStride
    ⟨tupleMin s1 restShape, mulKnown restStride m.stride⟩ ::
      peel (m' :: ms) (shapeDiv restShape |s1|) (shapeDiv restStride m.extent)

/-- The pairs `shape_div` is applied to in that loop. -/
def divisions : List Mode → ℤ → ℤ → List (ℤ × ℤ)
  | m :: m' :: ms, restShape, restStride =>
    let s1 := shapeDiv m.extent restStride
    (m.extent, restStride) :: (restShape, |s1|) :: (restStride, m.extent) ::
      divisions (m' :: ms) (shapeDiv restShape |s1|) (shapeDiv restStride m.extent)
  | _, _, _ => []

/-- `composition(A, n:r)` for a single mode. -/
def composeMode (a : Layout) (n r : ℤ) : Except Fault Layout :=
  if r = 0 then .ok (.mode n 0)
  else if a.flat = [] then .error .indexOutOfBounds
  else .ok (coalesce (peel a.flat n r))

mutual
/-- `composition(A, B)`. -/
def composition (a : Layout) : Layout → Except Fault Layout
  | .mode n r => composeMode a n r
  | .modes [] => .ok a
  | .modes (l :: ls) => (compositionItems a (l :: ls)).map modes
def compositionItems (a : Layout) : List Layout → Except Fault (List Layout)
  | [] => .ok []
  | l :: ls => do
    let c ← composition a l
    let cs ← compositionItems a ls
    return c :: cs
end

theorem shapeDiv_of_dvd {a b : ℤ} (ha : 0 < a) (hb : 0 < b) (h : b ∣ a) : shapeDiv a b = a / b := by
  have hmod : a.fmod b = 0 := by rw [fmod_eq_emod_of_nonneg _ hb.le, emod_eq_zero_of_dvd h]
  rw [shapeDiv, if_neg (by simp [ne_unknown ha.le, ne_unknown hb.le]), if_pos hmod, fdiv_eq_ediv_of_nonneg _ hb.le]

theorem shapeDiv_of_not_dvd {a b : ℤ} (ha : 0 < a) (hb : 0 < b) (h : ¬ b ∣ a) : shapeDiv a b = 1 := by
  have hmod : a.fmod b ≠ 0 := by
    rw [fmod_eq_emod_of_nonneg _ hb.le]
    exact fun h0 => h (dvd_of_emod_eq_zero h0)
  rw [shapeDiv, if_neg (by simp [ne_unknown ha.le, ne_unknown hb.le]), if_neg hmod, sign_eq_one_of_pos (mul_pos ha hb)]

@[simp] theorem shapeDiv_one {a : ℤ} (ha : 0 < a) : shapeDiv a 1 = a := by
  rw [shapeDiv_of_dvd ha one_pos (one_dvd a), ediv_one]

theorem shapeDiv_of_multiple {a b : ℤ} (ha : 0 < a) (hb : 0 < b) (h : a ∣ b) : shapeDiv a b = 1 := by
  by_cases hback : b ∣ a
  · rw [shapeDiv_of_dvd ha hb hback, Int.dvd_antisymm hb.le ha.le hback h, Int.ediv_self ha.ne']
  · exact shapeDiv_of_not_dvd ha hb hback

theorem tupleMin_eq {a b : ℤ} (ha : 0 < a) (hb : 0 < b) : tupleMin a b = min a b := by
  rw [tupleMin, if_neg (by simp [ne_unknown ha.le, ne_unknown hb.le])]

theorem mulKnown_eq {a b : ℤ} (ha : 0 ≤ a) (hb : 0 ≤ b) : mulKnown a b = a * b := by
  rw [mulKnown, if_neg (by simp [ne_unknown ha, ne_unknown hb])]

def PositiveModes (ms : List Mode) : Prop := ∀ m ∈ ms, 0 < m.extent ∧ 0 < m.stride

variable {ms : List Mode} {t : ℤ}

theorem PositiveModes.regular (h : PositiveModes ms) : Regular ms :=
  fun m hm => ⟨(h m hm).1, (h m hm).2.le⟩

theorem PositiveModes.positive (h : PositiveModes ms) : Positive ms := h.regular.positive

theorem positiveModes_cons {m : Mode} : PositiveModes (m :: ms) ↔ (0 < m.extent ∧ 0 < m.stride) ∧ PositiveModes ms := by
  simp [PositiveModes]

theorem positiveModes_pair {n d n' d' : ℤ} (h : 0 < n ∧ 0 < d) (h' : 0 < n' ∧ 0 < d') :
    PositiveModes (modes [.mode n d, .mode n' d']).flat := by
  simp [PositiveModes, flat, flatAll, h, h']

theorem positiveModes_append {xs ys : List Mode} : PositiveModes (xs ++ ys) ↔ PositiveModes xs ∧ PositiveModes ys :=
  List.forall_mem_append

section Step

variable {m m' : Mode} {ms : List Mode} {n r : ℤ}

section

variable (hm : 0 < m.extent) (hd : 0 < m.stride) (hn : 0 < n) (hr : 0 < r)
include hm hd hn hr

/-- The extent divides the stride: the mode is passed over. -/
theorem peel_over (h : m.extent ∣ r) :
    peel (m :: m' :: ms) n r = ⟨1, r * m.stride⟩ :: peel (m' :: ms) n (r / m.extent) := by
  have hs1 : shapeDiv m.extent r = 1 := shapeDiv_of_multiple hm hr h
  have hmin : min 1 n = 1 := min_eq_left hn
  simp [peel, hs1, shapeDiv_one hn, tupleMin_eq one_pos hn, hmin, mulKnown_eq hr.le hd.le, shapeDiv_of_dvd hr hm h]

/-- Neither divides the other: the mode is passed over all the same, and the stride becomes one. -/
theorem peel_skip (h : ¬ m.extent ∣ r) (h' : ¬ r ∣ m.extent) :
    peel (m :: m' :: ms) n r = ⟨1, r * m.stride⟩ :: peel (m' :: ms) n 1 := by
  have hmin : min 1 n = 1 := min_eq_left hn
  simp [peel, shapeDiv_of_not_dvd hm hr h', abs_one, shapeDiv_one hn, tupleMin_eq one_pos hn, hmin, mulKnown_eq hr.le hd.le, shapeDiv_of_not_dvd hr hm h]

/-- The stride properly divides the extent: the mode is cut into `extent / stride` steps. -/
theorem peel_into (h : ¬ m.extent ∣ r) (ht : 0 < t) (hmt : m.extent = r * t) : peel (m :: m' :: ms) n r =
      ⟨min t n, r * m.stride⟩ :: peel (m' :: ms) (shapeDiv n t) 1 := by
  have hs1 : shapeDiv m.extent r = t := by
    rw [shapeDiv_of_dvd hm hr ⟨t, hmt⟩, hmt, mul_ediv_cancel_left _ hr.ne']
  simp [peel, hs1, abs_of_pos ht, tupleMin_eq ht hn, mulKnown_eq hr.le hd.le, shapeDiv_of_not_dvd hr hm h]

end

theorem reach_over (hm : 0 < m.extent) (h : m.extent ∣ r) (i : ℤ) :
    reach (m :: m' :: ms) (r * i) = reach (m' :: ms) (r / m.extent * i) := by
  obtain ⟨q, rfl⟩ := h
  rw [reach, mul_assoc, mul_emod_right, mul_ediv_cancel_left _ hm.ne',
    mul_ediv_cancel_left _ hm.ne', zero_mul, zero_add]

theorem reach_into (hr : 0 < r) (hmt : m.extent = r * t) (i : ℤ) :
    reach (m :: m' :: ms) (r * i) = i % t * (r * m.stride) + reach (m' :: ms) (i / t) := by
  rw [reach, hmt, mul_emod_mul_of_pos _ _ hr, mul_ediv_mul_of_pos _ _ hr]
  ring

end Step

/-- The peeled modes compose: they have `n` indices and follow `A` at the multiples of `r`. -/
def Right (ms : List Mode) (n r : ℤ) : Prop :=
  MixedRadix.size (peel ms n r) = n ∧
    ∀ i, 0 ≤ i → i < n → offset (peel ms n r) i = reach ms (r * i)

/-- What a single mode `n:r` needs of the modes of `A`. At each mode but the last either its extent
divides the remaining stride; or the stride divides the extent, and the remaining count fits into
this mode or is a multiple of the steps the mode has; or only one index is left. Where neither
divides the other, the strides of `A` must happen to repeat. -/
def Composable : List Mode → ℤ → ℤ → Prop
  | m :: m' :: ms, n, r =>
    (m.extent ∣ r ∧ Composable (m' :: ms) n (r / m.extent)) ∨
    (¬ m.extent ∣ r ∧ r ∣ m.extent ∧
      (n ≤ m.extent / r ∨
        (m.extent / r ∣ n ∧ Composable (m' :: ms) (n / (m.extent / r)) 1))) ∨
    (¬ m.extent ∣ r ∧ ¬ r ∣ m.extent ∧
      (n = 1 ∨
        (Composable (m' :: ms) n 1 ∧ ∀ i, 0 ≤ i → i < n →
          r * i % m.extent * m.stride + reach (m' :: ms) (r * i / m.extent) =
            reach (m' :: ms) i)))
  | _, _, _ => True

/-- What every step of the loop does: it emits a mode that fits and goes on with positive
numbers. -/
theorem peel_step {m : Mode} (m' : Mode) (ms : List Mode) {n r : ℤ} (hm : 0 < m.extent)
    (hd : 0 < m.stride) (hn : 0 < n) (hr : 0 < r) : ∃ k n' r', 0 < k ∧ k ≤ n ∧ 0 < n' ∧ 0 < r' ∧ (n = 1 → n' = 1) ∧
      peel (m :: m' :: ms) n r = ⟨k, r * m.stride⟩ :: peel (m' :: ms) n' r' := by
  by_cases h : m.extent ∣ r
  · have hq : 0 < r / m.extent := ediv_pos_of_pos_of_dvd hr hm.le h
    exact ⟨1, n, r / m.extent, one_pos, hn, hn, hq, id, peel_over hm hd hn hr h⟩
  rcases Classical.em (r ∣ m.extent) with ⟨t, ht⟩ | h'
  · have htpos : 0 < t := by
      rw [ht] at hm
      exact pos_of_mul_pos_right hm hr.le
    refine ⟨min t n, shapeDiv n t, 1, lt_min htpos hn, min_le_right _ _, ?_, one_pos, ?_,
      peel_into hm hd hn hr h htpos ht⟩
    · by_cases htn : t ∣ n
      · rw [shapeDiv_of_dvd hn htpos htn]
        exact ediv_pos_of_pos_of_dvd hn htpos.le htn
      · rw [shapeDiv_of_not_dvd hn htpos htn]
        exact one_pos
    · rintro rfl
      exact shapeDiv_of_multiple one_pos htpos (one_dvd t)
  · exact ⟨1, n, 1, one_pos, hn, hn, one_pos, id, peel_skip hm hd hn hr h h'⟩

theorem peel_regular (hms : PositiveModes ms) {n r : ℤ} (hn : 0 < n) (hr : 0 < r) : Regular (peel ms n r) := by
  induction ms generalizing n r with
  | nil => simp [peel, Regular]
  | cons m ms ih =>
    obtain ⟨⟨hm, hd⟩, hms⟩ := positiveModes_cons.mp hms
    cases ms with
    | nil => simpa [peel, Regular, mulKnown_eq hr.le hd.le, hn] using (mul_pos hr hd).le
    | cons m' ms =>
      obtain ⟨k, n', r', hk, -, hn', hr', -, hpeel⟩ := peel_step m' ms hm hd hn hr
      rw [hpeel]
      intro b hb
      rcases List.mem_cons.mp hb with rfl | hb
      · exact ⟨hk, (mul_pos hr hd).le⟩
      · exact ih hms hn' hr' b hb

theorem size_peel_one (hms : PositiveModes ms) {r : ℤ} (hr : 0 < r) : MixedRadix.size (peel ms 1 r) = 1 := by
  induction ms generalizing r with
  | nil => rfl
  | cons m ms ih =>
    obtain ⟨⟨hm, hd⟩, hms⟩ := positiveModes_cons.mp hms
    cases ms with
    | nil => simp [peel]
    | cons m' ms =>
      obtain ⟨k, n', r', hk, hk1, -, hr', hone, hpeel⟩ := peel_step m' ms hm hd one_pos hr
      have hk : k = 1 := by omega
      rw [hpeel, hone rfl, hk, size_cons, ih hms hr', mul_one]

/-- With stride one only the count can be lost, and the size shows it. -/
theorem composable_of_size (hms : PositiveModes ms) {n : ℤ} (hn : 0 < n)
    (hsize : MixedRadix.size (peel ms n 1) = n) : Composable ms n 1 := by
  induction ms generalizing n with
  | nil => trivial
  | cons m ms ih =>
    obtain ⟨⟨hm, hd⟩, hms⟩ := positiveModes_cons.mp hms
    cases ms with
    | nil => trivial
    | cons m' ms =>
      by_cases h : m.extent ∣ 1
      · have hone : (1 : ℤ) / m.extent = 1 := by
          rw [eq_one_of_dvd_one hm.le h, ediv_one]
        rw [peel_over hm hd hn one_pos h, size_cons, one_mul, hone] at hsize
        refine .inl ⟨h, ?_⟩
        rw [hone]
        exact ih hms hn hsize
      · refine .inr (.inl ⟨h, one_dvd _, ?_⟩)
        rw [ediv_one]
        rcases le_or_gt n m.extent with hle | hlt
        · exact .inl hle
        rw [peel_into hm hd hn one_pos h hm (one_mul _).symm, size_cons, min_eq_left hlt.le] at hsize
        by_cases hdvd : m.extent ∣ n
        · refine .inr ⟨hdvd, ih hms (ediv_pos_of_pos_of_dvd hn hm.le hdvd) ?_⟩
          rw [shapeDiv_of_dvd hn hm hdvd] at hsize
          exact (Int.ediv_eq_of_eq_mul_right hm.ne' hsize.symm).symm
        · rw [shapeDiv_of_not_dvd hn hm hdvd, size_peel_one hms one_pos, mul_one] at hsize
          exact absurd hsize hlt.ne

section Right

variable {m m' : Mode} {ms : List Mode} {n r : ℤ}

section

variable (hm : 0 < m.extent) (hd : 0 < m.stride) (hn : 0 < n) (hr : 0 < r)
include hm hd hn hr

theorem right_over (h : m.extent ∣ r) : Right (m :: m' :: ms) n r ↔ Right (m' :: ms) n (r / m.extent) := by
  simp [Right, peel_over hm hd hn hr h, size_cons, offset_unit, reach_over hm h]

variable (h : ¬ m.extent ∣ r)
include h

theorem right_fits (hms : PositiveModes (m' :: ms)) (ht : 0 < t)
    (hmt : m.extent = r * t) (hle : n ≤ t) : Right (m :: m' :: ms) n r := by
  have hrest : shapeDiv n t = 1 := by
    rcases eq_or_ne n t with rfl | hne
    · rw [shapeDiv_of_dvd hn hn dvd_rfl, Int.ediv_self hn.ne']
    · exact shapeDiv_of_not_dvd hn ht fun hdvd => hne (le_antisymm hle (Int.le_of_dvd hn hdvd))
  have hpeel : peel (m :: m' :: ms) n r = _ := peel_into hm hd hn hr h ht hmt
  rw [hrest, min_eq_right hle] at hpeel
  refine ⟨by rw [hpeel, size_cons, size_peel_one hms one_pos, mul_one], ?_⟩
  intro i h0 hi
  rw [hpeel, reach_into hr hmt, offset, emod_eq_of_lt h0 hi,
    emod_eq_of_lt h0 (hi.trans_le hle), ediv_eq_zero_of_lt h0 hi,
    ediv_eq_zero_of_lt h0 (hi.trans_le hle), offset_zero, reach_zero]

/-- The count is a multiple of the steps in the mode: the rest goes on with stride one. -/
theorem right_into (ht : 0 < t) (hmt : m.extent = r * t) (hdvd : t ∣ n) :
    Right (m :: m' :: ms) n r ↔ Right (m' :: ms) (n / t) 1 := by
  obtain ⟨q, rfl⟩ := hdvd
  have hpeel : peel (m :: m' :: ms) (t * q) r = _ := peel_into hm hd hn hr h ht hmt
  rw [shapeDiv_of_dvd hn ht (dvd_mul_right t q), mul_ediv_cancel_left _ ht.ne',
    min_eq_left (le_of_dvd hn (dvd_mul_right t q))] at hpeel
  rw [Right, Right, hpeel, mul_ediv_cancel_left _ ht.ne', size_cons]
  refine and_congr (mul_right_inj' ht.ne') ⟨fun hall j h0 hj => ?_, fun hall i h0 hi => ?_⟩
  · -- the index `t * j` has no digit in this mode
    have hidx := hall (t * j) (mul_nonneg ht.le h0) (mul_lt_mul_of_pos_left hj ht)
    rw [offset, reach_into hr hmt, mul_emod_right, mul_ediv_cancel_left _ ht.ne'] at hidx
    simpa using hidx
  · rw [offset, reach_into hr hmt, hall (i / t) (Int.ediv_nonneg h0 ht.le)
      (Int.ediv_lt_of_lt_mul ht (by linarith)), one_mul]

theorem not_right_of_short (hms : PositiveModes (m' :: ms)) (ht : 0 < t)
    (hmt : m.extent = r * t) (hlt : t < n) (hdvd : ¬ t ∣ n) : ¬ Right (m :: m' :: ms) n r := by
  rintro ⟨hsize, -⟩
  rw [peel_into hm hd hn hr h ht hmt, shapeDiv_of_not_dvd hn ht hdvd, min_eq_left hlt.le,
    size_cons, size_peel_one hms one_pos, mul_one] at hsize
  exact hlt.ne hsize

/-- Past an inexact division of the stride the loop follows the rest of `A` index by index. -/
theorem right_skip (h' : ¬ r ∣ m.extent) : Right (m :: m' :: ms) n r ↔
      MixedRadix.size (peel (m' :: ms) n 1) = n ∧ ∀ i, 0 ≤ i → i < n → offset (peel (m' :: ms) n 1) i =
          r * i % m.extent * m.stride + reach (m' :: ms) (r * i / m.extent) := by
  simp [Right, peel_skip hm hd hn hr h h', size_cons, offset_unit, reach]

end

end Right

/-- The loop is right exactly where the mode is composable. -/
theorem right_iff (hne : ms ≠ []) (hms : PositiveModes ms) {n r : ℤ} (hn : 0 < n)
    (hr : 0 < r) : Right ms n r ↔ Composable ms n r := by
  -- along the modes of `A`; each branch of the loop is one branch of `Composable`
  induction ms generalizing n r with
  | nil => exact absurd rfl hne
  | cons m ms ih =>
    obtain ⟨⟨hm, hd⟩, hms⟩ := positiveModes_cons.mp hms
    cases ms with
    | nil =>
      refine iff_of_true ⟨by simp [peel], fun i h0 hi => ?_⟩ trivial
      simp only [peel, offset, reach, mulKnown_eq hr.le hd.le, emod_eq_of_lt h0 hi]
      ring
    | cons m' ms =>
      have ih := @ih (by simp) hms
      by_cases h : m.extent ∣ r
      · rw [right_over hm hd hn hr h, ih hn (ediv_pos_of_pos_of_dvd hr hm.le h)]
        simp [Composable, h]
      by_cases h' : r ∣ m.extent
      · obtain ⟨t, hmt⟩ := h'
        have ht : 0 < t := by
          rw [hmt] at hm
          exact pos_of_mul_pos_right hm hr.le
        have hdiv : m.extent / r = t := by rw [hmt, mul_ediv_cancel_left _ hr.ne']
        have hcond : Composable (m :: m' :: ms) n r ↔
            n ≤ t ∨ (t ∣ n ∧ Composable (m' :: ms) (n / t) 1) := by
          rw [← hdiv]
          simp [Composable, h, Dvd.intro t hmt.symm]
        rw [hcond]
        rcases le_or_gt n t with hle | hlt
        · exact iff_of_true (right_fits hm hd hn hr h hms ht hmt hle) (.inl hle)
        by_cases hdvd : t ∣ n
        · rw [right_into hm hd hn hr h ht hmt hdvd, ih (ediv_pos_of_pos_of_dvd hn ht.le hdvd) one_pos]
          simp [hdvd, hlt.not_ge]
        · refine iff_of_false (not_right_of_short hm hd hn hr h hms ht hmt hlt hdvd) ?_
          simp [hdvd, hlt.not_ge]
      · rw [right_skip hm hd hn hr h h']
        have hcond : Composable (m :: m' :: ms) n r ↔ n = 1 ∨ (Composable (m' :: ms) n 1 ∧ ∀ i, 0 ≤ i → i < n →
              r * i % m.extent * m.stride + reach (m' :: ms) (r * i / m.extent) =
                reach (m' :: ms) i) := by
          simp [Composable, h, h']
        rw [hcond]
        constructor
        · rintro ⟨hsize, hall⟩
          have hrest := composable_of_size hms hn hsize
          refine .inr ⟨hrest, fun i h0 hi => ?_⟩
          rw [← hall i h0 hi, ((ih hn one_pos).mpr hrest).2 i h0 hi, one_mul]
        · rintro (rfl | ⟨hrest, hall⟩)
          · refine ⟨size_peel_one hms one_pos, fun i h0 hi => ?_⟩
            have hi0 : i = 0 := by omega
            simp [hi0]
          · obtain ⟨hsize, hfollow⟩ := (ih hn one_pos).mpr hrest
            exact ⟨hsize, fun i h0 hi => by rw [hfollow i h0 hi, one_mul, hall i h0 hi]⟩

end MojoProse.Layouts
