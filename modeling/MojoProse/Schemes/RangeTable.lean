import MojoProse.Schemes.Bisect

/-! Tables of ranges: each value holds from its start up to the next start. -/

namespace MojoProse.Schemes

open List

variable {α β : Type}

/-- The value at a point: that of the last range that starts at or below it. -/
def valueAt : α → List (ℕ × α) → ℕ → α
  | current, [], _ => current
  | current, (start, value) :: rest, x => if x < start then current else valueAt value rest x

theorem valueAt_of_lt {current value : α} {start x : ℕ} {rest : List (ℕ × α)} (h : x < start) :
    valueAt current ((start, value) :: rest) x = current :=
  if_pos h

theorem valueAt_of_le {current value : α} {start x : ℕ} {rest : List (ℕ × α)} (h : start ≤ x) :
    valueAt current ((start, value) :: rest) x = valueAt value rest x :=
  if_neg (Nat.not_lt.mpr h)

theorem valueAt_zip {x : ℕ} : ∀ (starts : List ℕ) (values : List α) (default : α) (k : ℕ),
    starts.length = values.length → (∀ i < k, ∃ start, starts[i]? = some start ∧ start ≤ x) →
      (∀ start, starts[k]? = some start → x < start) →
        valueAt default (starts.zip values) x = if k = 0 then default else values.getD (k - 1) default
  | [], [], default, 0, _, _, _ => rfl
  | [], [], default, k + 1, _, hbelow, _ => by
    obtain ⟨start, hstart, -⟩ := hbelow 0 (Nat.succ_pos k)
    cases hstart
  | start :: starts, value :: values, default, 0, _, _, habove => by
    rw [zip_cons_cons, valueAt_of_lt (habove start rfl), if_pos rfl]
  | start :: starts, value :: values, default, k + 1, hlen, hbelow, habove => by
    obtain ⟨start', hstart, hle⟩ := hbelow 0 (Nat.succ_pos k)
    obtain rfl : start = start' := Option.some.inj hstart
    have ih := valueAt_zip starts values value k (Nat.succ.inj hlen)
      (fun i hi => hbelow (i + 1) (Nat.succ_lt_succ hi)) habove
    rw [zip_cons_cons, valueAt_of_le hle, ih, if_neg (Nat.succ_ne_zero k)]
    rcases k with _ | k
    · rfl
    · have hlt : k < values.length := by
        obtain ⟨last, hlast, -⟩ := hbelow (k + 1) (Nat.lt_succ_self _)
        have hlast' := (List.getElem?_eq_some_iff.mp hlast).1
        simp only [length_cons] at hlast' hlen
        omega
      simp [getD, getElem?_eq_getElem hlt]

theorem bisect_starts {starts : List ℕ} (hsort : starts.Pairwise (· < ·)) (x : ℕ) :
    let k := bisectLeft (fun mid => starts[mid]?.all (x < ·)) 0 starts.length
    (∀ i < k, ∃ start, starts[i]? = some start ∧ start ≤ x) ∧ ∀ start, starts[k]? = some start → x < start := by
  have hmono : ∀ i j : ℕ, i ≤ j → starts[i]?.all (x < ·) = true → starts[j]?.all (x < ·) = true := by
    intro i j hij hi
    rcases hj : starts[j]? with _ | start
    · rfl
    obtain ⟨hj', rfl⟩ := List.getElem?_eq_some_iff.mp hj
    rw [getElem?_eq_getElem (by omega)] at hi
    have hx : x < starts[i] := of_decide_eq_true hi
    rcases Nat.eq_or_lt_of_le hij with rfl | hlt
    · exact decide_eq_true hx
    · exact decide_eq_true (Nat.lt_trans hx (pairwise_iff_getElem.mp hsort i j _ hj' hlt))
  obtain ⟨hk, hbelow, habove⟩ := bisectLeft_spec hmono 0 starts.length (Nat.zero_le _) (by simp) (Nat.le_refl _)
    (fun h => absurd h (Nat.lt_irrefl _))
  refine ⟨fun i hi => ?_, fun start hstart => ?_⟩
  · have hlt : i < starts.length := by omega
    have hfalse := hbelow i hi
    rw [getElem?_eq_getElem hlt] at hfalse ⊢
    exact ⟨_, rfl, Nat.not_lt.mp (of_decide_eq_false hfalse)⟩
  · have htrue := habove (List.getElem?_eq_some_iff.mp hstart).1
    rw [hstart] at htrue
    exact of_decide_eq_true htrue

/-- The pairs of values that two tables have at one point; the fuel is the number of their ranges. -/
def joint : ℕ → α → β → List (ℕ × α) → List (ℕ × β) → List (α × β)
  | fuel + 1, a, b, (start, a') :: as, (start', b') :: bs =>
    (a, b) ::
      if start < start' then joint fuel a' b as ((start', b') :: bs)
      else if start' < start then joint fuel a b' ((start, a') :: as) bs
      else joint fuel a' b' as bs
  | fuel + 1, a, b, (_, a') :: as, [] => (a, b) :: joint fuel a' b as []
  | fuel + 1, a, b, [], (_, b') :: bs => (a, b) :: joint fuel a b' [] bs
  | _, a, b, _, _ => [(a, b)]

theorem mem_joint {x : ℕ} : ∀ (fuel : ℕ) (a : α) (b : β) (as : List (ℕ × α)) (bs : List (ℕ × β)),
    as.length + bs.length ≤ fuel → (valueAt a as x, valueAt b bs x) ∈ joint fuel a b as bs
  | fuel, a, b, [], [], _ => by simp [joint, valueAt]
  | 0, a, b, _ :: as, bs, h => by simp at h
  | 0, a, b, [], _ :: bs, h => by simp at h
  | fuel + 1, a, b, (start, a') :: as, [], h => by
    have ih := @mem_joint x fuel a' b as [] (by simpa using h)
    rw [joint]
    rcases Nat.lt_or_ge x start with hlt | hge
    · rw [valueAt_of_lt hlt]
      exact mem_cons_self
    · rw [valueAt_of_le hge]
      exact mem_cons_of_mem _ ih
  | fuel + 1, a, b, [], (start', b') :: bs, h => by
    have ih := @mem_joint x fuel a b' [] bs (by simpa using h)
    rw [joint]
    rcases Nat.lt_or_ge x start' with hlt | hge
    · rw [valueAt_of_lt hlt]
      exact mem_cons_self
    · rw [valueAt_of_le hge]
      exact mem_cons_of_mem _ ih
  | fuel + 1, a, b, (start, a') :: as, (start', b') :: bs, h => by
    simp only [length_cons] at h
    rw [joint]
    split_ifs with hlt hgt
    · have ih := @mem_joint x fuel a' b as ((start', b') :: bs) (by simp only [length_cons]; omega)
      rcases Nat.lt_or_ge x start with hx | hx
      · rw [valueAt_of_lt hx, valueAt_of_lt (by omega)]
        exact mem_cons_self
      · rw [valueAt_of_le hx]
        exact mem_cons_of_mem _ ih
    · have ih := @mem_joint x fuel a b' ((start, a') :: as) bs (by simp only [length_cons]; omega)
      rcases Nat.lt_or_ge x start' with hx | hx
      · rw [valueAt_of_lt hx, valueAt_of_lt (by omega)]
        exact mem_cons_self
      · rw [@valueAt_of_le _ b b' start' x bs hx]
        exact mem_cons_of_mem _ ih
    · have ih := @mem_joint x fuel a' b' as bs (by omega)
      obtain rfl : start = start' := by omega
      rcases Nat.lt_or_ge x start with hx | hx
      · rw [valueAt_of_lt hx, valueAt_of_lt hx]
        exact mem_cons_self
      · rw [valueAt_of_le hx, valueAt_of_le hx]
        exact mem_cons_of_mem _ ih

end MojoProse.Schemes
