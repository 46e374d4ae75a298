import MojoProse.Layouts.Composition

/-!
# Composition composes

Coalescing keeps the index map (`coalesce_agrees`), so composing with a single mode is right exactly where the loop is
(`composition_mode_iff`). Over a tuple `B` the modes are composed one by one; the sum of the parts is
the whole where no digit of `A` carries, which the nesting of `B`'s moving modes rules out
(`composition_composes`).
-/

namespace MojoProse.Layouts

open Layout List

open Schemes
open Schemes.MixedRadix hiding size

variable {a : Layout} {ms : List Mode}

/-- The modes `ds` have the size of `ms` and its index map. -/
structure Follows (ds ms : List Mode) : Prop where
  regular : Regular ds
  size : MixedRadix.size ds = MixedRadix.size ms
  offset : ∀ i, offset ds i = offset ms i

theorem Follows.append {ds ds' ms' : List Mode} (h : Follows ds ms) (h' : Follows ds' ms') (hms : Positive ms) :
    Follows (ds ++ ds') (ms ++ ms') := by
  refine ⟨regular_append.mpr ⟨h.regular, h'.regular⟩, by simp [h.size, h'.size], fun i => ?_⟩
  rw [offset_append h.regular.positive, offset_append hms, h.offset, h'.offset, h.size]

theorem coalesceFrom_follows (ms : List Mode) {last : Mode} (h : Regular (last :: ms)) :
    Follows (coalesceFrom last ms) (last :: ms) := by
  induction ms generalizing last with
  | nil => exact ⟨h, rfl, fun i => rfl⟩
  | cons m ms ih =>
    obtain ⟨hlast, hrest⟩ := forall_mem_cons.mp h
    obtain ⟨hm, hms⟩ := forall_mem_cons.mp hrest
    rw [coalesceFrom]
    split_ifs with hone hunit hmerge
    · -- a mode of extent one is skipped
      obtain ⟨hreg, hsize, hoff⟩ := ih (forall_mem_cons.mpr ⟨hlast, hms⟩)
      refine ⟨hreg, by simp [hsize, hone], fun i => ?_⟩
      rw [hoff, offset, offset, offset, hone]
      simp
    · -- our own extent one gives way
      obtain ⟨hreg, hsize, hoff⟩ := ih hrest
      refine ⟨hreg, by simp [hsize, hunit], fun i => ?_⟩
      rw [hoff, offset.eq_2 i last, hunit]
      simp
    · have hpos : 0 < last.extent * m.extent := mul_pos hlast.1 hm.1
      obtain ⟨hreg, hsize, hoff⟩ := @ih ⟨last.extent * m.extent, last.stride⟩
        (forall_mem_cons.mpr ⟨⟨hpos, hlast.2⟩, hms⟩)
      refine ⟨hreg, by simp [hsize, mul_assoc], fun i => ?_⟩
      rw [hoff, ← offset_merge hlast.1, hmerge.1]
    · obtain ⟨hreg, hsize, hoff⟩ := ih hrest
      refine ⟨forall_mem_cons.mpr ⟨hlast, hreg⟩, by simp [hsize], fun i => ?_⟩
      rw [offset, hoff, offset.eq_2 i last]

theorem flatAll_map_mode (ms : List Mode) : flatAll (ms.map fun m => .mode m.extent m.stride) = ms := by
  induction ms with
  | nil => rfl
  | cons m ms ih => simp [flatAll, flat, ih]

theorem flat_ofModes (ms : List Mode) : (ofModes ms).flat = ms := by
  unfold ofModes
  split
  · rfl
  · exact flatAll_map_mode ms

theorem coalesce_follows (h : Regular ms) : Follows (coalesce ms).flat ms := by
  obtain ⟨hreg, hsize, hoff⟩ := @coalesceFrom_follows ms ⟨1, 0⟩ (forall_mem_cons.mpr ⟨⟨one_pos, le_rfl⟩, h⟩)
  rw [coalesce, flat_ofModes]
  exact ⟨hreg, by simp [hsize], fun i => by rw [hoff, offset_unit]⟩

theorem coalesceAll_follows (ks : List Layout) (h : Regular (flatAll ks)) :
    Follows (flatAll (ks.map fun k => coalesce k.flat)) (flatAll ks) := by
  induction ks with
  | nil => exact ⟨h, rfl, fun i => rfl⟩
  | cons k ks ih =>
    obtain ⟨hk, hks⟩ := regular_append.mp h
    exact (coalesce_follows hk).append (ih hks) hk.positive

/-- No mode has a single index or continues the mode before it. -/
def Coalesced (ms : List Mode) : Prop :=
  (∀ m ∈ ms, m.extent ≠ 1) ∧ ms.IsChain fun p q => p.extent * p.stride ≠ q.stride

/-- The entry the loop may still change keeps its stride, so what continues the entry before it was merged. -/
theorem coalesceFrom_coalesced (ms : List Mode) {last : Mode} (h : Regular (last :: ms)) (hlast : last.extent ≠ 1) :
    Coalesced (coalesceFrom last ms) ∧ ∀ q ∈ (coalesceFrom last ms).head?, q.stride = last.stride := by
  induction ms generalizing last with
  | nil => simp [coalesceFrom, Coalesced, hlast]
  | cons m ms ih =>
    obtain ⟨⟨hpos, hd⟩, hrest⟩ := forall_mem_cons.mp h
    obtain ⟨⟨hm, hd'⟩, hms⟩ := forall_mem_cons.mp hrest
    rw [coalesceFrom, if_neg hlast]
    split_ifs with hone hmerge
    · exact ih (forall_mem_cons.mpr ⟨⟨hpos, hd⟩, hms⟩) hlast
    · refine @ih ⟨_, _⟩ (forall_mem_cons.mpr ⟨⟨mul_pos hpos hm, hd⟩, hms⟩) fun hprod => hlast ?_
      exact Int.eq_one_of_mul_eq_one_right hpos.le hprod
    · obtain ⟨⟨hne, hchain⟩, hhead⟩ := ih hrest hone
      refine ⟨⟨forall_mem_cons.mpr ⟨hlast, hne⟩, isChain_cons.mpr ⟨fun q hq hcont => hmerge ⟨?_, ?_⟩, hchain⟩⟩, by simp⟩
      · rw [hcont, hhead q hq]
      · simp [(ne_unknown hpos.le).symm, (ne_unknown hd).symm, (ne_unknown hm.le).symm, (ne_unknown hd').symm]

theorem coalesceFrom_unit (h : Regular ms) :
    coalesceFrom ⟨1, 0⟩ ms = [⟨1, 0⟩] ∨ Coalesced (coalesceFrom ⟨1, 0⟩ ms) := by
  induction ms with
  | nil => exact .inl rfl
  | cons m ms ih =>
    rw [coalesceFrom, if_pos rfl]
    split_ifs with hone
    · exact ih (forall_mem_cons.mp h).2
    · exact .inr (coalesceFrom_coalesced ms h hone).1

theorem flatAll_items (a : Layout) : flatAll a.items = a.flat := by
  cases a with
  | mode s d => simp [items, flatAll, flat]
  | modes ls => rfl

theorem flat_coalesceModes (l : Layout) : (coalesceModes l).flat = flatAll (l.items.map fun k => coalesce k.flat) := by
  rw [coalesceModes]
  split
  · next k hk => simp [hk, flatAll]
  · rfl

/-- `D` has the indices of `L` and its value at each of them. -/
def Agrees (d l : Layout) : Prop := d.size = l.size ∧ ∀ i, 0 ≤ i → i < l.size → d.call i = l.call i

theorem Follows.agrees {d l : Layout} (h : Follows d.flat l.flat) (hl : Regular l.flat) : Agrees d l := by
  have hsize : d.size = l.size := by rw [size_eq h.regular.positive, size_eq hl.positive, h.size]
  refine ⟨hsize, fun i h0 hi => ?_⟩
  rw [call_eq_offset h.regular h0 (hsize ▸ hi), call_eq_offset hl h0 hi, h.offset]

/-- Coalescing keeps the function, mode by mode or as a whole, and as a whole it leaves nothing to coalesce. -/
theorem coalesce_agrees {l : Layout} (h : Regular l.flat) : Agrees (coalesce l.flat) l ∧ Agrees (coalesceModes l) l ∧
    (coalesce l.flat = .mode 1 0 ∨ Coalesced (coalesce l.flat).flat) := by
  refine ⟨(coalesce_follows h).agrees h, ?_, ?_⟩
  · have hmodes := coalesceAll_follows l.items (by rwa [flatAll_items])
    rw [← flat_coalesceModes, flatAll_items] at hmodes
    exact hmodes.agrees h
  · refine (coalesceFrom_unit h).imp (fun hone => ?_) fun hco => ?_
    · rw [coalesce, hone]
      rfl
    · rwa [coalesce, flat_ofModes]

theorem coalesce_agrees_nested : Agrees (coalesce (modes [.mode 2 1, .modes [.mode 1 4, .mode 4 2]]).flat)
    (.modes [.mode 2 1, .modes [.mode 1 4, .mode 4 2]]) :=
  (coalesce_agrees (by simp [Regular, flat, flatAll])).1

/-- The modes that composing `A` with one mode of `B` leaves. -/
def composedModes (ms : List Mode) (b : Mode) : List Mode :=
  if b.stride = 0 then [⟨b.extent, 0⟩] else coalesceFrom ⟨1, 0⟩ (peel ms b.extent b.stride)

theorem composeMode_flat (ha : a.flat ≠ []) (n r : ℤ) :
    ∃ c, composeMode a n r = .ok c ∧ c.flat = composedModes a.flat ⟨n, r⟩ := by
  rw [composeMode, composedModes, if_neg ha]
  split_ifs
  · exact ⟨_, rfl, rfl⟩
  · exact ⟨_, rfl, flat_ofModes _⟩

theorem composedModes_follows (hms : PositiveModes ms) {b : Mode} (hn : 0 < b.extent) (hr : 0 < b.stride) :
    Follows (composedModes ms b) (peel ms b.extent b.stride) := by
  have h := coalesce_follows (peel_regular hms hn hr)
  rw [coalesce, flat_ofModes] at h
  rwa [composedModes, if_neg hr.ne']

/-- `C` composes `A` with `B`: it has the size of `B` and follows `A` at the values of `B`. -/
def Composes (a b c : Layout) : Prop :=
  c.size = b.size ∧ ∀ i, 0 ≤ i → i < b.size → c.call i = a.call (b.call i)

/-- The values of `B` lie in the domain of `A`. -/
def ImageWithin (a b : Layout) : Prop :=
  ∀ i, 0 ≤ i → i < b.size → 0 ≤ b.call i ∧ b.call i < a.size

theorem call_mode {n r i : ℤ} (hn : 0 < n) (hr : 0 ≤ r) (h0 : 0 ≤ i) (hi : i < n) : (mode n r).call i = r * i := by
  have hreg : Regular (mode n r).flat := by
    simpa [flat, Regular] using ⟨hn, hr⟩
  rw [call_eq_offset hreg h0 hi]
  simp [flat, offset, Int.emod_eq_of_lt h0 hi, mul_comm]

theorem call_eq_reach (hne : a.flat ≠ []) (ha : PositiveModes a.flat) {x : ℤ}
    (h0 : 0 ≤ x) (hx : x < a.size) : a.call x = reach a.flat x := by
  rw [call_eq_offset ha.regular h0 hx, reach_eq_offset hne ha.positive h0 (by rwa [← size_eq ha.positive])]

mutual
def Layout.Filled : Layout → Prop
  | .mode _ _ => True
  | .modes ls => ls ≠ [] ∧ AllFilled ls
def Layout.AllFilled : List Layout → Prop
  | [] => True
  | l :: ls => l.Filled ∧ AllFilled ls
end

mutual
theorem composition_flat (ha : a.flat ≠ []) : ∀ {b : Layout}, b.Filled →
    ∃ c, composition a b = .ok c ∧ c.flat = b.flat.flatMap (composedModes a.flat)
  | .mode n r, _ => by
    obtain ⟨c, hc, hflat⟩ := composeMode_flat ha n r
    exact ⟨c, by rw [composition, hc], by simp [hflat, flat]⟩
  | .modes [], h => absurd rfl h.1
  | .modes (l :: ls), h => by
    obtain ⟨cs, hcs, hflat⟩ := compositionItems_flat ha h.2
    exact ⟨.modes cs, by rw [composition, hcs]; rfl, hflat⟩
theorem compositionItems_flat (ha : a.flat ≠ []) : ∀ {ls : List Layout},
    AllFilled ls → ∃ cs, compositionItems a ls = .ok cs ∧ flatAll cs = (flatAll ls).flatMap (composedModes a.flat)
  | [], _ => ⟨[], rfl, rfl⟩
  | l :: ls, h => by
    obtain ⟨c, hc, hflat⟩ := composition_flat ha h.1
    obtain ⟨cs, hcs, hflats⟩ := compositionItems_flat ha h.2
    refine ⟨c :: cs, ?_, ?_⟩
    · rw [compositionItems, hc, hcs]
      rfl
    · rw [flatAll, flatAll, flatMap_append, hflat, hflats]
end

/-- Every division of the loop is exact one way or the other. -/
def ExactDivisions (ms : List Mode) (n r : ℤ) : Prop :=
  ∀ p ∈ divisions ms n r, p.1 ∣ p.2 ∨ p.2 ∣ p.1

/-- Exact divisions make a mode composable, and its stride ends on a digit of `A`. -/
theorem ExactDivisions.spec (hms : PositiveModes ms) {n r : ℤ} (hn : 0 < n)
    (hr : 0 < r) (h : ExactDivisions ms n r) : Composable ms n r ∧ Aligned ms r := by
  induction ms generalizing n r with
  | nil => exact ⟨trivial, trivial⟩
  | cons m ms ih =>
    obtain ⟨⟨hm, hd⟩, hms⟩ := positiveModes_cons.mp hms
    cases ms with
    | nil => exact ⟨trivial, trivial⟩
    | cons m' ms =>
      have hstride := h (m.extent, r) (by simp [divisions])
      have hcnt := h (n, |shapeDiv m.extent r|) (by simp [divisions])
      have hrest : ∀ n' r', shapeDiv n |shapeDiv m.extent r| = n' →
          shapeDiv r m.extent = r' → ExactDivisions (m' :: ms) n' r' := by
        rintro n' r' rfl rfl p hp
        exact h p (by simp [divisions, hp])
      by_cases hover : m.extent ∣ r
      · have hq : 0 < r / m.extent := Int.ediv_pos_of_pos_of_dvd hr hm.le hover
        have hsteps : shapeDiv m.extent r = 1 := shapeDiv_of_multiple hm hr hover
        obtain ⟨hcomp, hal⟩ := ih hms hn hq (hrest _ _ (by rw [hsteps, abs_one, shapeDiv_one hn])
          (shapeDiv_of_dvd hr hm hover))
        exact ⟨.inl ⟨hover, hcomp⟩, .inl ⟨hover, hal⟩⟩
      · have hinto : r ∣ m.extent := hstride.resolve_left hover
        have hq : 0 < m.extent / r := Int.ediv_pos_of_pos_of_dvd hm hr.le hinto
        rw [shapeDiv_of_dvd hm hr hinto, abs_of_pos hq] at hcnt hrest
        refine ⟨.inr (.inl ⟨hover, hinto, ?_⟩), .inr hinto⟩
        by_cases hdvd : m.extent / r ∣ n
        · exact .inr ⟨hdvd, (ih hms (Int.ediv_pos_of_pos_of_dvd hn hq.le hdvd) one_pos
            (hrest _ _ (shapeDiv_of_dvd hn hq hdvd) (shapeDiv_of_not_dvd hr hm hover))).1⟩
        · exact .inl (Int.le_of_dvd hq (hcnt.resolve_right hdvd))

theorem composedModes_of_exact (hne : ms ≠ []) (hms : PositiveModes ms) {b : Mode}
    (hn : 0 < b.extent) (hr : 0 ≤ b.stride) (hexact : b.stride ≠ 0 → ExactDivisions ms b.extent b.stride) :
    Regular (composedModes ms b) ∧ MixedRadix.size (composedModes ms b) = b.extent ∧
      ∀ i, 0 ≤ i → i < b.extent → offset (composedModes ms b) i = reach ms (i * b.stride) := by
  rcases hr.eq_or_lt with hzero | hr
  · have hmodes : composedModes ms b = [⟨b.extent, 0⟩] := if_pos hzero.symm
    rw [hmodes, ← hzero]
    exact ⟨by simpa [Regular] using hn, by simp, fun i _ _ => by simp [offset]⟩
  · obtain ⟨hreg, hsize, hoff⟩ := composedModes_follows hms hn hr
    obtain ⟨hright, hfollow⟩ := (right_iff hne hms hn hr).mpr (ExactDivisions.spec hms hn hr (hexact hr.ne')).1
    refine ⟨hreg, by rw [hsize, hright], fun i h0 hi => ?_⟩
    rw [hoff, hfollow i h0 hi, mul_comm]

/-- Exact divisions and nested moving modes of `B`: the composed modes follow the open index map of `A`. -/
theorem composition_spec {b : Layout} (hane : a.flat ≠ []) (ha : PositiveModes a.flat)
    (hbfill : b.Filled) (hb : Regular b.flat)
    (hexact : ∀ m ∈ b.flat, m.stride ≠ 0 → ExactDivisions a.flat m.extent m.stride) (hnested : Nested b.flat) :
    ∃ c, composition a b = .ok c ∧ Regular c.flat ∧ MixedRadix.size c.flat = MixedRadix.size b.flat ∧
      ∀ i, offset c.flat i = reach a.flat (offset b.flat i) := by
  obtain ⟨c, hc, hflat⟩ := composition_flat hane hbfill
  have hpart : ∀ m ∈ b.flat, _ := fun m hm =>
    composedModes_of_exact hane ha (hb m hm).1 (hb m hm).2 (hexact m hm)
  refine ⟨c, hc, ?_, ?_, fun i => ?_⟩
  · rw [hflat]
    intro m hm
    obtain ⟨d, hd, hm⟩ := mem_flatMap.mp hm
    exact (hpart d hd).1 m hm
  · rw [hflat]
    exact size_flatMap _ fun m hm => (hpart m hm).2.1
  -- the value of `B` is a sum of digits, and `A` is read at each of them
  have hterms := terms_bound hb.positive i
  have hmem : ∀ t ∈ terms b.flat i, t.1 ∈ b.flat := by
    intro t ht
    rw [← terms_modes b.flat i]
    exact mem_map_of_mem ht
  have hparts : offset c.flat i = ((terms b.flat i).map fun t =>
      reach a.flat (t.2 * t.1.stride)).sum := by
    rw [hflat, offset_flatMap _ (fun m hm => (hpart m hm).1.positive) (fun m hm => (hpart m hm).2.1)]
    refine congrArg sum (map_congr_left fun t ht => ?_)
    obtain ⟨hlow, hhigh⟩ := hterms t ht
    exact (hpart t.1 (hmem t ht)).2.2 t.2 hlow hhigh
  rw [hparts, offset_eq_sum_terms]
  refine (reach_sum_of_nested ha.positive _ hterms (fun t ht => ?_) ?_).symm
  · have hm := hmem t ht
    exact ⟨(hb t.1 hm).2, fun hpos =>
      (ExactDivisions.spec ha (hb t.1 hm).1 hpos (hexact t.1 hm hpos.ne')).2⟩
  · rwa [terms_modes]

end MojoProse.Layouts
