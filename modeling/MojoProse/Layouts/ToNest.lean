import MojoProse.Layouts.Layout

/-!
# Nesting a flat tuple

`to_nest(nested, flat)` rebuilds the nesting of a template from flat values. For a nested tuple it
takes `depth + 1` values, where `depth` counts tuples and not leaves. `NestsBack` says exactly which
templates are rebuilt (`toNestItems_spec`); for the others some read runs past the end of its slice
(`toNestItems_fault`).
-/

namespace MojoProse.Layouts

open IntTuple List

open Schemes.MixedRadix (Mode)

/-- `flat[i]`, with the bounds check of `__getitem__`. -/
def getItem (flat : List ℤ) (i : ℕ) : Except Fault ℤ :=
  match flat[i]? with
  | some v => .ok v
  | none => .error .indexOutOfBounds

mutual
/-- `to_nest(nested, flat)`: the result is always built as a tuple. -/
def toNest : IntTuple → List ℤ → Except Fault IntTuple
  | .value _, flat => do
    let v ← getItem flat 0
    return .tuple [.value v]
  | .tuple ts, flat => (toNestItems ts flat 0).map tuple
/-- Its loop, with `flat_idx`. -/
def toNestItems : List IntTuple → List ℤ → ℕ → Except Fault (List IntTuple)
  | [], _, _ => .ok []
  | .value _ :: ts, flat, flatIdx => do
    let v ← getItem flat flatIdx
    let rest ← toNestItems ts flat (flatIdx + 1)
    return .value v :: rest
  | .tuple us :: ts, flat, flatIdx => do
    let subSize := (tuple us).depth + 1
    let sub ← toNest (.tuple us) ((flat.drop flatIdx).take subSize)
    let rest ← toNestItems ts flat (flatIdx + subSize)
    return sub :: rest
end

mutual
/-- Every nested tuple holds at most `depth + 1` leaves, and exactly as many where a leaf of the same tuple follows it.
    -/
def NestsBack : IntTuple → Prop
  | .value _ => True
  | .tuple ts => NestsBackAll ts
def NestsBackAll : List IntTuple → Prop
  | [] => True
  | .value _ :: ts => NestsBackAll ts
  | .tuple us :: ts =>
    NestsBack (.tuple us) ∧ (leavesAll us).length ≤ (tuple us).depth + 1 ∧
      (leavesAll ts ≠ [] →
        (leavesAll us).length = (tuple us).depth + 1) ∧
      NestsBackAll ts
end

variable {flat : List ℤ} {i : ℕ}

theorem getItem_of_lt (h : i < flat.length) : getItem flat i = .ok flat[i] := by
  rw [getItem, getElem?_eq_getElem h]

theorem getItem_of_le (h : flat.length ≤ i) : getItem flat i = .error .indexOutOfBounds := by
  rw [getItem, getElem?_eq_none h]

theorem bind_error {α β : Type} {x : Except Fault α} {k : α → Except Fault β}
    (h : ∀ a, x = .ok a → ∃ f, k a = .error f) : ∃ f, (x >>= k) = .error f := by
  cases x with
  | error f => exact ⟨f, rfl⟩
  | ok a => exact h a rfl

theorem toNest_of_items {ts : List IntTuple} {f : Fault}
    (h : toNestItems ts flat 0 = .error f) : toNest (.tuple ts) flat = .error f := by
  rw [toNest, h]
  rfl

theorem toNestItems_short : ∀ (ts : List IntTuple) (flat : List ℤ) (i : ℕ),
    leavesAll ts ≠ [] → flat.length < i + (leavesAll ts).length → ∃ f, toNestItems ts flat i = .error f
  | [], _, _, hne, _ => absurd rfl hne
  | .value v :: ts, flat, i, _, h => by
    have hcnt : (leavesAll (.value v :: ts)).length =
        1 + (leavesAll ts).length := by
      simp [leavesAll, leaves, Nat.add_comm]
    rw [hcnt] at h
    rw [toNestItems]
    rcases Nat.lt_or_ge i flat.length with hi | hi
    · rw [getItem_of_lt hi]
      refine bind_error fun a _ => bind_error fun rest hrest => ?_
      have hne : leavesAll ts ≠ [] := ne_nil_of_length_pos (by omega)
      obtain ⟨f, hf⟩ := toNestItems_short ts flat (i + 1) hne (by omega)
      rw [hf] at hrest
      cases hrest
    · rw [getItem_of_le hi]
      exact ⟨_, rfl⟩
  | .tuple us :: ts, flat, i, hne, h => by
    have hcnt : (leavesAll (.tuple us :: ts)).length =
        (leavesAll us).length + (leavesAll ts).length := by
      simp [leavesAll, leaves]
    have hpos := length_pos_of_ne_nil hne
    rw [hcnt] at h hpos
    rw [toNestItems]
    refine bind_error fun sub hsub => bind_error fun rest hrest => ?_
    -- the slice held all its leaves, so what follows is still short
    have henough : (leavesAll us).length ≤
        ((flat.drop i).take ((tuple us).depth + 1)).length := by
      by_contra hshort
      rw [not_le] at hshort
      have hus : leavesAll us ≠ [] := ne_nil_of_length_pos (Nat.zero_lt_of_lt hshort)
      obtain ⟨f, hf⟩ := toNestItems_short us _ 0 hus (by rwa [zero_add])
      rw [toNest_of_items hf] at hsub
      cases hsub
    rw [length_take, length_drop] at henough
    have hne : leavesAll ts ≠ [] := ne_nil_of_length_pos (by omega)
    obtain ⟨f, hf⟩ := toNestItems_short ts flat (i + ((tuple us).depth + 1)) hne (by omega)
    rw [hf] at hrest
    cases hrest

mutual
theorem nestsBack_of_leafless : ∀ t : IntTuple, t.leaves = [] → NestsBack t
  | .value _, _ => trivial
  | .tuple ts, h => nestsBackAll_of_leafless ts h
theorem nestsBackAll_of_leafless : ∀ ts : List IntTuple, leavesAll ts = [] → NestsBackAll ts
  | [], _ => trivial
  | .value v :: ts, h => by simp [leavesAll, leaves] at h
  | .tuple us :: ts, h => by
    simp only [leavesAll, leaves, append_eq_nil_iff] at h
    refine ⟨nestsBack_of_leafless (.tuple us) h.1, ?_, fun hne => absurd h.2 hne, nestsBackAll_of_leafless ts h.2⟩
    rw [h.1]
    exact Nat.zero_le _
end

/-- The values a loop has at hand: none are needed, or all that remain are. -/
def AtHand (ts : List IntTuple) (flat : List ℤ) (i : ℕ) : Prop :=
  leavesAll ts = [] ∨ flat.length = i + (leavesAll ts).length

theorem AtHand.value_rest {v : ℤ} {ts : List IntTuple} (h : AtHand (.value v :: ts) flat i) :
    flat.length = i + 1 + (leavesAll ts).length := by
  rcases h with h | h
  · simp [leavesAll, leaves] at h
  · simp only [leavesAll, leaves, singleton_append, length_cons] at h
    omega

variable {us ts : List IntTuple}

theorem AtHand.rest (h : AtHand (.tuple us :: ts) flat i) (hexact : leavesAll ts ≠ [] →
      (leavesAll us).length = (tuple us).depth + 1) : AtHand ts flat (i + ((tuple us).depth + 1)) := by
  rcases eq_or_ne (leavesAll ts) [] with hnil | hne
  · exact .inl hnil
  rcases h with h | h
  · simp only [leavesAll, leaves, append_eq_nil_iff] at h
    exact absurd h.2 hne
  · simp only [leavesAll, leaves, length_append] at h
    have := hexact hne
    exact .inr (by omega)

theorem AtHand.slice (h : AtHand (.tuple us :: ts) flat i) (hfits : (leavesAll us).length ≤ (tuple us).depth + 1)
    (hexact : leavesAll ts ≠ [] → (leavesAll us).length = (tuple us).depth + 1) :
    AtHand us ((flat.drop i).take ((tuple us).depth + 1)) 0 := by
  rcases h with h | h
  · simp only [leavesAll, leaves, append_eq_nil_iff] at h
    exact .inl h.1
  · simp only [leavesAll, leaves, length_append] at h
    rw [AtHand, length_take, length_drop]
    rcases eq_or_ne (leavesAll ts) [] with hnil | hne
    · rw [hnil, length_nil] at h
      exact .inr (by omega)
    · have := hexact hne
      exact .inr (by omega)

theorem slice_append (flat : List ℤ) (i : ℕ) (hfits : (leavesAll us).length ≤ (tuple us).depth + 1)
    (hexact : leavesAll ts ≠ [] → (leavesAll us).length = (tuple us).depth + 1) :
    (((flat.drop i).take ((tuple us).depth + 1)).drop 0).take (leavesAll us).length ++
      (flat.drop (i + ((tuple us).depth + 1))).take (leavesAll ts).length =
    (flat.drop i).take ((leavesAll us).length + (leavesAll ts).length) := by
  rw [drop_zero, take_take, min_eq_left hfits]
  rcases eq_or_ne (leavesAll ts) [] with hnil | hne
  · simp [hnil]
  · rw [← hexact hne, take_add, drop_drop]

theorem toNestItems_spec : ∀ (ts : List IntTuple) (flat : List ℤ) (i : ℕ), NestsBackAll ts →
    AtHand ts flat i → ∃ us, toNestItems ts flat i = .ok us ∧ congruentAll ts us = true ∧
      leavesAll us = (flat.drop i).take (leavesAll ts).length
  | [], flat, i, _, _ => ⟨[], rfl, rfl, by simp [leavesAll]⟩
  | .value v :: ts, flat, i, h, hflat => by
    have hcnt := hflat.value_rest
    have hi : i < flat.length := by omega
    obtain ⟨us, hus, hcong, hleaves⟩ := toNestItems_spec ts flat (i + 1) h (.inr hcnt)
    refine ⟨.value flat[i] :: us, ?_, by simpa [congruentAll, congruent], ?_⟩
    · rw [toNestItems, getItem_of_lt hi, hus]
      rfl
    · simp only [leavesAll, leaves, singleton_append, length_cons, hleaves, drop_eq_getElem_cons hi, take_succ_cons]
  | .tuple us :: ts, flat, i, ⟨hnest, hfits, hexact, hrest⟩, hflat => by
    obtain ⟨ws, hws, hwcong, hwleaves⟩ := toNestItems_spec us _ 0 hnest (hflat.slice hfits hexact)
    obtain ⟨vs, hvs, hcong, hleaves⟩ := toNestItems_spec ts flat _ hrest (hflat.rest hexact)
    refine ⟨.tuple ws :: vs, ?_, ?_, ?_⟩
    · rw [toNestItems, toNest, hws, hvs]
      rfl
    · rw [congruentAll, congruent, hwcong, hcong]
      rfl
    · rw [leavesAll, leaves, hwleaves, hleaves, slice_append flat i hfits hexact]
      simp [leavesAll, leaves]

theorem toNest_spec (us : List IntTuple) (flat : List ℤ) (h : NestsBack (.tuple us)) (hflat : AtHand us flat 0) :
    ∃ t, toNest (.tuple us) flat = .ok t ∧ (tuple us).congruent t = true ∧
      t.leaves = (flat.drop 0).take (leavesAll us).length := by
  obtain ⟨ts, hts, hcong, hleaves⟩ := toNestItems_spec us flat 0 h hflat
  exact ⟨.tuple ts, by rw [toNest, hts]; rfl, hcong, hleaves⟩

/-- A template that does not nest back is read past the end of some slice. -/
theorem toNestItems_fault : ∀ (ts : List IntTuple) (flat : List ℤ) (i : ℕ), ¬ NestsBackAll ts →
    AtHand ts flat i → ∃ f, toNestItems ts flat i = .error f
  | [], _, _, h, _ => absurd trivial h
  | .value v :: ts, flat, i, h, hflat => by
    have hcnt := hflat.value_rest
    obtain ⟨f, hf⟩ := toNestItems_fault ts flat (i + 1) h (.inr hcnt)
    rw [toNestItems]
    refine bind_error fun a _ => bind_error fun rest hrest => ?_
    rw [hf] at hrest
    cases hrest
  | .tuple us :: ts, flat, i, h, hflat => by
    have hcnt : flat.length =
        i + ((leavesAll us).length + (leavesAll ts).length) := by
      rcases hflat with hflat | hflat
      · exact absurd (nestsBackAll_of_leafless _ hflat) h
      · simpa [leavesAll, leaves] using hflat
    rw [toNestItems]
    refine bind_error fun sub hsub => bind_error fun rest hrest => ?_
    exfalso
    -- both calls returned; so the slice was long enough and the rest was not short
    have hfits : (leavesAll us).length ≤ (tuple us).depth + 1 := by
      by_contra hlong
      obtain ⟨f, hf⟩ := toNestItems_short us ((flat.drop i).take ((tuple us).depth + 1)) 0
        (ne_nil_of_length_pos (by omega)) (by rw [length_take]; omega)
      rw [toNest_of_items hf] at hsub
      cases hsub
    have hexact : leavesAll ts ≠ [] →
        (leavesAll us).length = (tuple us).depth + 1 := by
      intro hne
      by_contra hless
      obtain ⟨f, hf⟩ := toNestItems_short ts flat (i + ((tuple us).depth + 1)) hne (by omega)
      rw [hf] at hrest
      cases hrest
    by_cases hnest : NestsBack (.tuple us)
    · have hback : ¬ NestsBackAll ts := fun hts => h ⟨hnest, hfits, hexact, hts⟩
      obtain ⟨f, hf⟩ := toNestItems_fault ts flat _ hback (hflat.rest hexact)
      rw [hf] at hrest
      cases hrest
    · obtain ⟨f, hf⟩ := toNestItems_fault us _ 0 hnest (hflat.slice hfits hexact)
      rw [toNest_of_items hf] at hsub
      cases hsub

end MojoProse.Layouts
