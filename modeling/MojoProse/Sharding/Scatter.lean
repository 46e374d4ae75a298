import MojoProse.Sharding.GraphOps

/-! Scattering a tensor over a mesh, mesh axis by mesh axis.

    `scatterLoop` keeps the list of shards cut so far. `cut` follows one device instead: what is left for it after the
    mesh axes before `k`. The loop ends with the cuts of all devices, in device order (`scatterLoop_eq`). -/

namespace MojoProse.Sharding

open Schemes RowMajor List Tensor Nat Placement

variable {R : Type*}

/-- Splits `dim` into `n` sizes that differ by at most 1. -/
def evenSplitSizes (dim n : ℕ) : List ℕ :=
  (range n).map fun i => dim / n + if i < dim % n then 1 else 0

/-- Splits `sv` into `n` load-balanced chunks along `axis`. -/
def evenSplitAlongAxis (sv : Tensor R) (axis : ℤ) (n : ℕ) : Except Fault (List (Tensor R)) :=
  match axisIndex sv.rank axis with
  | none => .error (.axisOutOfRange axis sv.rank)
  | some a => split sv (evenSplitSizes (sv.extent a) n) axis

/-- The shards after the mesh axes still to come, each of which splits or copies every shard there is. -/
def scatterLoop : List ℕ → List Placement → List (Tensor R) → Except Fault (List (Tensor R))
  | n :: ns, p :: ps, shardTvs =>
    match p with
    | .sharded axis => do
      let newTvs ← shardTvs.mapM fun sv => evenSplitAlongAxis sv axis n
      scatterLoop ns ps newTvs.flatten
    | .replicated => scatterLoop ns ps (shardTvs.flatMap fun sv => replicate n sv)
    | .partialOf op => .error (.cannotScatter (.partialOf op))
  | _, _, shardTvs => .ok shardTvs

/-- Size-1 axes cannot host a shard: the first placement that asks for one. -/
def sizeOneFault (axisNames : List String) (shape : List ℕ) (placements : List Placement) : Option Fault :=
  (placements.zip axisNames).findSome? fun (p, name) =>
    match p.localizedAxis with
    | none => none
    | some axis =>
      if 0 ≤ axis ∧ axis < shape.length ∧ along shape axis.toNat = 1 then some (.sizeOneAxis p name axis) else none

def scatter (tv : Tensor R) (target : DeviceMapping) : Except Fault (List (Tensor R)) :=
  match sizeOneFault target.mesh.axisNames tv.shape target.placements with
  | some fault => .error fault
  | none => scatterLoop target.mesh.meshShape target.placements [tv]

@[simp] theorem length_evenSplitSizes (dim n : ℕ) : (evenSplitSizes dim n).length = n := by
  simp [evenSplitSizes]

theorem along_evenSplitSizes {dim n c : ℕ} (hc : c < n) :
    along (evenSplitSizes dim n) c = dim / n + if c < dim % n then 1 else 0 := by
  rw [along_eq_getElem (by simpa using hc)]
  simp [evenSplitSizes]

theorem sum_take_evenSplitSizes (dim : ℕ) {n c : ℕ} (hc : c ≤ n) :
    ((evenSplitSizes dim n).take c).sum = c * (dim / n) + min c (dim % n) := by
  induction c with
  | zero => simp
  | succ c ih =>
    rw [take_add_one, List.sum_append, ih (by omega)]
    have hget : (evenSplitSizes dim n)[c]? = some (dim / n + if c < dim % n then 1 else 0) := by
      simp [evenSplitSizes, getElem?_range (show c < n by omega)]
    rw [hget, Option.toList_some, sum_singleton, add_mul, one_mul]
    split
    · omega
    · omega

theorem sum_evenSplitSizes {dim n : ℕ} (hn : 0 < n) : (evenSplitSizes dim n).sum = dim := by
  have htake := sum_take_evenSplitSizes dim (le_refl n)
  rw [take_of_length_le (by simp)] at htake
  have hmod := mod_lt dim hn
  have hdiv := div_add_mod dim n
  rw [htake, min_eq_right hmod.le, hdiv]

/-- Chunk `c` of the `n` that axis `a` is split into. -/
def chunk (sv : Tensor R) (a n c : ℕ) : Tensor R :=
  sv.narrow a ((evenSplitSizes (sv.extent a) n).take c).sum (along (evenSplitSizes (sv.extent a) n) c)

theorem chunk_shape (sv : Tensor R) (a : ℕ) {n c : ℕ} (hc : c < n) :
    (chunk sv a n c).shape = sv.shape.set a (along (evenSplitSizes (sv.extent a) n) c) := by
  have hfit : ((evenSplitSizes (sv.extent a) n).take c).sum + along (evenSplitSizes (sv.extent a) n) c ≤
      sv.extent a := by
    have hdiv := div_add_mod (sv.extent a) n
    have hmul : (c + 1) * (sv.extent a / n) ≤ n * (sv.extent a / n) := mul_le_mul_right _ hc
    rw [sum_take_evenSplitSizes _ hc.le, along_evenSplitSizes hc]
    rw [add_mul, one_mul] at hmul
    split
    · omega
    · omega
  rw [chunk, narrow]
  exact congrArg _ (min_eq_left (by omega))

@[simp] theorem chunk_rank (sv : Tensor R) (a n c : ℕ) : (chunk sv a n c).rank = sv.rank := by
  simp [chunk, rank, narrow]

theorem evenSplitAlongAxis_ok {sv : Tensor R} {axis : ℤ} {a n : ℕ} (haxis : axisIndex sv.rank axis = some a)
    (hn : 0 < n) : evenSplitAlongAxis sv axis n = .ok ((range n).map (chunk sv a n)) := by
  have hne : evenSplitSizes (sv.extent a) n ≠ [] := by
    intro hnil
    have hlen := congrArg length hnil
    rw [length_evenSplitSizes, length_nil] at hlen
    omega
  have hspl := split_ok hne haxis (sum_evenSplitSizes hn)
  have hpieces : sv.pieces a 0 (evenSplitSizes (sv.extent a) n) = (range n).map (chunk sv a n) := by
    refine ext_getElem? fun c => ?_
    rcases lt_or_ge c n with hc | hc
    · rw [getElem?_pieces sv a 0 (by simpa using hc), zero_add]
      simp [hc, chunk]
    · rw [getElem?_eq_none (by simpa using hc), getElem?_eq_none (by simpa using hc)]
  rw [evenSplitAlongAxis, haxis]
  exact hspl.trans (by rw [hpieces])

/-- The tensor axis that a placement splits, counted from the front. -/
def Placement.tensorAxis (rank : ℕ) (p : Placement) : Option ℕ := p.localizedAxis.bind (axisIndex rank)

/-- A placement that `_scatter` can produce on tensors of this rank. -/
def Placement.Placeable (rank : ℕ) : Placement → Prop
  | .replicated => True
  | .sharded axis => (axisIndex rank axis).isSome
  | .partialOf _ => False

instance (rank : ℕ) (p : Placement) : Decidable (p.Placeable rank) := by
  cases p <;> unfold Placement.Placeable <;> infer_instance

/-- What one mesh axis of size `n` leaves of a tensor for a device with coordinate `c`. -/
def cutStep (rank : ℕ) (p : Placement) (n c : ℕ) (g : Tensor R) : Tensor R :=
  match p.tensorAxis rank with
  | some a => chunk g a n c
  | none => g

@[simp] theorem cutStep_rank (rank : ℕ) (p : Placement) (n c : ℕ) (g : Tensor R) :
    (cutStep rank p n c g).rank = g.rank := by
  rw [cutStep]
  split
  · exact chunk_rank ..
  · rfl

/-- What the mesh axes before `k` leave of `g` for device `d`. -/
def cut (ns : List ℕ) (placements : List Placement) (g : Tensor R) (d : ℕ) : ℕ → Tensor R
  | 0 => g
  | k + 1 => cutStep g.rank (placementOn placements k) (ns.getD k 1) (coord ns k d) (cut ns placements g d k)

@[simp] theorem cut_rank (ns : List ℕ) (placements : List Placement) (g : Tensor R) (d k : ℕ) :
    (cut ns placements g d k).rank = g.rank := by
  induction k with
  | zero => rfl
  | succ k ih => rw [cut, cutStep_rank, ih]

/-- What the mesh axes still to come leave of `g` for device `d`. -/
def cutRest (rank : ℕ) : List ℕ → List Placement → Tensor R → ℕ → Tensor R
  | n :: ns, p :: ps, g, d => cutRest rank ns ps (cutStep rank p n (d / ns.prod % n) g) d
  | _, _, g, _ => g

theorem cutRest_add_mul (rank : ℕ) {ns : List ℕ} (hpos : ∀ n ∈ ns, 0 < n) (ps : List Placement) (g : Tensor R)
    (c d : ℕ) : cutRest rank ns ps g (c * ns.prod + d) = cutRest rank ns ps g d := by
  induction ns generalizing ps g c with
  | nil => cases ps <;> rfl
  | cons n ns ih =>
    cases ps with
    | nil => rfl
    | cons p ps =>
      have hpos' := forall_mem_of_forall_mem_cons hpos
      have hcoord : (c * (n * ns.prod) + d) / ns.prod % n = d / ns.prod % n := by
        have hspl : c * (n * ns.prod) + d = d + ns.prod * (n * c) := by ring
        rw [hspl, add_mul_div_left _ _ (prod_pos hpos'), add_mul_mod_self_left]
      rw [prod_cons, cutRest, cutRest, hcoord, ← mul_assoc, ih hpos']

theorem range_mul_map {β : Type*} (n m : ℕ) (f : ℕ → β) :
    (range (n * m)).map f = (range n).flatMap fun c => (range m).map fun r => f (c * m + r) := by
  induction n with
  | zero => simp
  | succ n ih =>
    rw [add_mul, one_mul, range_add, map_append, ih, range_succ, flatMap_append,
      flatMap_singleton, map_map]
    rfl

theorem mapM_ok {α β ε : Type*} {f : α → Except ε β} {h : α → β} {l : List α} (hf : ∀ x ∈ l, f x = .ok (h x)) :
    l.mapM f = .ok (l.map h) := by
  induction l with
  | nil => rfl
  | cons x l ih =>
    rw [mapM_cons, hf x mem_cons_self, ih fun y hy => hf y (mem_cons_of_mem _ hy)]
    rfl

/-- The loop cuts every tensor it starts from, device after device. -/
theorem scatterLoop_flatMap {rank : ℕ} {ns : List ℕ} (hpos : ∀ n ∈ ns, 0 < n) {ps : List Placement}
    (hlen : ps.length = ns.length) (hplace : ∀ p ∈ ps, p.Placeable rank) {l : List (Tensor R)}
    (hrank : ∀ g ∈ l, g.rank = rank) :
    scatterLoop ns ps l = .ok (l.flatMap fun g => (range ns.prod).map (cutRest rank ns ps g)) := by
  induction ns generalizing ps l with
  | nil =>
    simp [scatterLoop, cutRest]
  | cons n ns ih =>
    obtain ⟨p, ps, rfl⟩ := exists_cons_of_length_eq_add_one hlen
    have hpos' := forall_mem_of_forall_mem_cons hpos
    have hplace' := forall_mem_of_forall_mem_cons hplace
    have hlen' : ps.length = ns.length := by simpa using hlen
    -- One row of devices for each coordinate along the first axis.
    have hrows : ∀ g : Tensor R, (range (n :: ns).prod).map (cutRest rank (n :: ns) (p :: ps) g) =
        (range n).flatMap fun c => (range ns.prod).map (cutRest rank ns ps (cutStep rank p n c g)) := by
      intro g
      rw [prod_cons, range_mul_map]
      refine flatMap_congr fun c hc => map_congr_left fun r hr => ?_
      have hr' := mem_range.mp hr
      have hcoord : (c * ns.prod + r) / ns.prod % n = c := by
        rw [mul_comm, mul_add_div (prod_pos hpos'), div_eq_of_lt hr', add_zero, mod_eq_of_lt (mem_range.mp hc)]
      rw [cutRest, hcoord, cutRest_add_mul _ hpos']
    simp only [hrows]
    cases p with
    | partialOf op => exact absurd (hplace _ mem_cons_self) id
    | replicated =>
      have hcopies : ∀ g ∈ l.flatMap (fun sv => replicate n sv), g.rank = rank := by
        intro g hg
        obtain ⟨sv, hsv, hcopy⟩ := mem_flatMap.mp hg
        rw [eq_of_mem_replicate hcopy, hrank sv hsv]
      rw [scatterLoop, ih hpos' hlen' hplace' hcopies, flatMap_assoc]
      congr 1
      refine flatMap_congr fun g _ => ?_
      have hcopy : replicate n g = (range n).map fun _ => g := by simp
      rw [hcopy, flatMap_map]
      rfl
    | sharded axis =>
      obtain ⟨a, haxis⟩ := Option.isSome_iff_exists.mp (hplace _ mem_cons_self)
      have hspl : ∀ sv ∈ l, evenSplitAlongAxis sv axis n = .ok ((range n).map (chunk sv a n)) :=
        fun sv hsv => evenSplitAlongAxis_ok (by rwa [hrank sv hsv]) (hpos n mem_cons_self)
      have hchunks : ∀ g ∈ (l.map fun sv => (range n).map (chunk sv a n)).flatten, g.rank = rank := by
        intro g hg
        simp only [mem_flatten, mem_map, exists_exists_and_eq_and] at hg
        obtain ⟨sv, hsv, c, _, rfl⟩ := hg
        rw [chunk_rank, hrank sv hsv]
      have hstep : ∀ g : Tensor R, ∀ c, cutStep rank (.sharded axis) n c g = chunk g a n c := by
        intro g c
        simp [cutStep, tensorAxis, localizedAxis, haxis]
      rw [scatterLoop, mapM_ok hspl]
      change scatterLoop ns ps (l.map _).flatten = _
      rw [ih hpos' hlen' hplace' hchunks, ← flatMap_def, flatMap_assoc]
      congr 1
      refine flatMap_congr fun g _ => ?_
      rw [flatMap_map]
      simp [hstep]

theorem cutRest_drop (ns : List ℕ) {ps : List Placement} (hlen : ps.length = ns.length) (g : Tensor R) (d : ℕ) {k : ℕ}
    (hk : k ≤ ns.length) : cutRest g.rank ns ps g d = cutRest g.rank (ns.drop k) (ps.drop k) (cut ns ps g d k) d := by
  induction k with
  | zero => rfl
  | succ k ih =>
    have hn : ns.drop k = ns.getD k 1 :: ns.drop (k + 1) := by
      rw [getD_eq_getElem _ _ (by omega)]
      exact drop_eq_getElem_cons (by omega)
    have hp : ps.drop k = placementOn ps k :: ps.drop (k + 1) := by
      rw [placementOn, getD_eq_getElem _ _ (by omega)]
      exact drop_eq_getElem_cons (by omega)
    rw [ih (by omega), hn, hp, cutRest]
    rfl

theorem scatterLoop_eq {ns : List ℕ} (hpos : ∀ n ∈ ns, 0 < n) {ps : List Placement} (hlen : ps.length = ns.length)
    {g : Tensor R} (hplace : ∀ p ∈ ps, p.Placeable g.rank) :
    scatterLoop ns ps [g] = .ok ((range ns.prod).map fun d => cut ns ps g d ns.length) := by
  rw [scatterLoop_flatMap hpos hlen hplace (by simp), flatMap_singleton]
  congr 1
  refine map_congr_left fun d _ => ?_
  rw [cutRest_drop ns hlen g d (le_refl _), drop_length]
  cases ps.drop ns.length <;> rfl

/-- Scattering is refused exactly where a sharded axis, counted from the front, has extent 1. -/
theorem sizeOneFault_eq_none {names : List String} {shape : List ℕ} {ps : List Placement}
    (hlen : ps.length ≤ names.length) : sizeOneFault names shape ps = none ↔
      ∀ axis : ℤ, .sharded axis ∈ ps → 0 ≤ axis → axis < shape.length → along shape axis.toNat ≠ 1 := by
  rw [sizeOneFault, findSome?_eq_none_iff]
  constructor
  · intro h axis hmem hlow hhigh hone
    obtain ⟨k, hk, hget⟩ := getElem_of_mem hmem
    have hzip : (.sharded axis, names[k]) ∈ ps.zip names := by
      refine mem_iff_getElem.mpr ⟨k, by simp only [length_zip]; omega, ?_⟩
      rw [getElem_zip, hget]
    have hnone := h _ hzip
    simp [localizedAxis, hlow, hhigh, hone] at hnone
  · rintro h ⟨p, name⟩ hmem
    have hp : p ∈ ps := (of_mem_zip hmem).1
    cases p with
    | replicated => rfl
    | partialOf op => rfl
    | sharded axis =>
      simp only [localizedAxis, ite_eq_right_iff, reduceCtorEq, imp_false, not_and]
      exact h axis hp

def Splits (rank : ℕ) (placements : List Placement) (a k : ℕ) : Prop :=
  (placementOn placements k).tensorAxis rank = some a

instance (rank : ℕ) (placements : List Placement) (a : ℕ) : DecidablePred (Splits rank placements a) :=
  fun _ => inferInstanceAs (Decidable (_ = _))

/-- What the mesh axes before `k` that are in `S` leave of an extent for device `d`. -/
def cutSize (ns : List ℕ) (S : ℕ → Prop) [DecidablePred S] (dim d : ℕ) : ℕ → ℕ
  | 0 => dim
  | k + 1 =>
    if S k then along (evenSplitSizes (cutSize ns S dim d k) (ns.getD k 1)) (coord ns k d) else cutSize ns S dim d k

theorem cut_extent {ns : List ℕ} (hpos : ∀ n ∈ ns, 0 < n) (ps : List Placement) (g : Tensor R) {a : ℕ}
    (ha : a < g.rank) (d k : ℕ) : (cut ns ps g d k).extent a = cutSize ns (Splits g.rank ps a) (g.extent a) d k := by
  induction k with
  | zero => rfl
  | succ k ih =>
    have hrank : a < (cut ns ps g d k).shape.length := by
      have hsame := cut_rank ns ps g d k
      rw [rank] at hsame
      omega
    rw [cut, cutStep, cutSize]
    cases haxis : (placementOn ps k).tensorAxis g.rank with
    | none =>
      rw [if_neg (by simp [Splits, haxis]), ← ih]
    | some b =>
      rw [extent, chunk_shape _ _ (coord_lt hpos)]
      rcases eq_or_ne b a with rfl | hne
      · rw [if_pos (show Splits g.rank ps b k from haxis), along_set_self hrank, ih]
      · rw [if_neg (by simp [Splits, haxis, hne]), along_set_ne hne, ← ih, extent]

theorem cutSize_succ_le {ns : List ℕ} (hpos : ∀ n ∈ ns, 0 < n) (S : ℕ → Prop) [DecidablePred S] (dim d k : ℕ) :
    cutSize ns S dim d (k + 1) ≤ cutSize ns S dim d k := by
  rw [cutSize]
  split
  · have hc : coord ns k d < ns.getD k 1 := coord_lt hpos
    have hle : along (evenSplitSizes (cutSize ns S dim d k) (ns.getD k 1)) (coord ns k d) ≤
        (evenSplitSizes (cutSize ns S dim d k) (ns.getD k 1)).sum := by
      rw [along_eq_getElem (by simpa using hc)]
      exact single_le_sum (by simp) _ (getElem_mem _)
    rwa [sum_evenSplitSizes (by omega)] at hle
  · exact le_refl _

theorem cutSize_le_of_le {ns : List ℕ} (hpos : ∀ n ∈ ns, 0 < n) (S : ℕ → Prop) [DecidablePred S] (dim d : ℕ) {j k : ℕ}
    (h : j ≤ k) : cutSize ns S dim d k ≤ cutSize ns S dim d j :=
  antitone_nat_of_succ_le (cutSize_succ_le hpos S dim d) h

theorem cutSize_congr {ns : List ℕ} (S : ℕ → Prop) [DecidablePred S] (dim : ℕ) {d e k : ℕ}
    (h : ∀ j < k, coord ns j d = coord ns j e) : cutSize ns S dim d k = cutSize ns S dim e k := by
  induction k with
  | zero => rfl
  | succ k ih => rw [cutSize, cutSize, ih fun j hj => h j (by omega), h k (by omega)]

/-- Over the devices that differ only in the axes that split it, the sizes add up to the extent. -/
theorem sum_cutSize {ns : List ℕ} (hpos : ∀ n ∈ ns, 0 < n) (S : ℕ → Prop) [DecidablePred S] (dim : ℕ) {d k : ℕ}
    (hd : d < ns.prod) (hk : k ≤ ns.length) :
    ∑ e ∈ partners ns (fun j => j < k ∧ S j) d, cutSize ns S dim e k = dim := by
  induction k with
  | zero =>
    rw [partners_eq_singleton hpos hd (by simp), Finset.sum_singleton, cutSize]
  | succ k ih =>
    refine Eq.trans ?_ (ih (by omega))
    by_cases hS : S k
    · have hZ : ∀ j, (j < k + 1 ∧ S j) ↔ (j < k ∧ S j) ∨ j = k := by
        intro j
        constructor
        · rintro ⟨hj, hSj⟩
          exact (Nat.lt_succ_iff_lt_or_eq.mp hj).imp (fun h => ⟨h, hSj⟩) id
        · rintro (⟨hj, hSj⟩ | rfl)
          · exact ⟨by omega, hSj⟩
          · exact ⟨by omega, hS⟩
      rw [sum_partners hpos (by omega) hZ (by simp)]
      refine Finset.sum_congr rfl fun e he => ?_
      obtain ⟨he, -⟩ := mem_partners.mp he
      have hrow : ∀ i ∈ Finset.range (ns.getD k 1), cutSize ns S dim (moved ns k e i) (k + 1) =
          along (evenSplitSizes (cutSize ns S dim e k) (ns.getD k 1)) i := by
        intro i hi
        have hi' := Finset.mem_range.mp hi
        have hbef : cutSize ns S dim (moved ns k e i) k = cutSize ns S dim e k :=
          cutSize_congr S dim fun j hj => coord_moved_ne hpos he (by omega) hi' (by omega)
        rw [cutSize, if_pos hS, hbef, coord_moved_self hpos he (by omega) hi']
      rw [Finset.sum_congr rfl hrow, sum_along, take_of_length_le (by simp), sum_evenSplitSizes]
      exact (zero_le _).trans_lt (coord_lt hpos (d := d))
    · have hsame : (fun j => j < k + 1 ∧ S j) = fun j => j < k ∧ S j := by
        funext j
        refine propext ⟨?_, fun h => ⟨by omega, h.2⟩⟩
        rintro ⟨hj, hSj⟩
        exact ⟨lt_of_le_of_ne (by omega) fun h => hS (h ▸ hSj), hSj⟩
      refine Finset.sum_congr ?_ fun e _ => by rw [cutSize, if_neg hS]
      simp only [hsame]

/-- What the axes before `k` that are in `S` divide an extent by. -/
def sizesBefore (ns : List ℕ) (S : ℕ → Prop) [DecidablePred S] (k : ℕ) : ℕ :=
  ∏ j ∈ (Finset.range k).filter S, ns.getD j 1

section SizesBefore

variable {ns : List ℕ} {S : ℕ → Prop} [DecidablePred S]

@[simp] theorem sizesBefore_zero : sizesBefore ns S 0 = 1 := by
  simp [sizesBefore]

theorem sizesBefore_succ (k : ℕ) :
    sizesBefore ns S (k + 1) = if S k then sizesBefore ns S k * ns.getD k 1 else sizesBefore ns S k := by
  rw [sizesBefore, Finset.range_add_one, Finset.filter_insert]
  split
  · rw [Finset.prod_insert (by simp), mul_comm]
    rfl
  · rfl

theorem sizesBefore_dvd {j k : ℕ} (h : j ≤ k) : sizesBefore ns S j ∣ sizesBefore ns S k :=
  Finset.prod_dvd_prod_of_subset _ _ _ (Finset.filter_subset_filter _ (Finset.range_mono h))

theorem sizesBefore_pos (hpos : ∀ n ∈ ns, 0 < n) (k : ℕ) : 0 < sizesBefore ns S k :=
  Finset.prod_pos fun _ _ => (zero_le _).trans_lt (coord_lt hpos (d := 0))

theorem along_evenSplitSizes_of_dvd {dim n c : ℕ} (hc : c < n) (h : n ∣ dim) :
    along (evenSplitSizes dim n) c = dim / n := by
  rw [along_evenSplitSizes hc, mod_eq_zero_of_dvd h, if_neg (not_lt_zero c), add_zero]

theorem cutSize_of_dvd (hpos : ∀ n ∈ ns, 0 < n) {dim k : ℕ} (d : ℕ) (h : sizesBefore ns S k ∣ dim) :
    cutSize ns S dim d k = dim / sizesBefore ns S k := by
  induction k with
  | zero => simp [cutSize]
  | succ k ih =>
    rw [sizesBefore_succ] at h ⊢
    rw [cutSize]
    split at h
    next hS =>
      obtain ⟨q, rfl⟩ := h
      have hbef : sizesBefore ns S k * ns.getD k 1 * q / sizesBefore ns S k = ns.getD k 1 * q := by
        rw [Nat.mul_assoc, Nat.mul_div_cancel_left _ (sizesBefore_pos hpos k)]
      rw [if_pos hS, if_pos hS, ih ⟨ns.getD k 1 * q, by ring⟩, hbef,
        along_evenSplitSizes_of_dvd (coord_lt hpos) ⟨q, rfl⟩, ← Nat.div_div_eq_div_mul, hbef]
    next hS => rw [if_neg hS, if_neg hS, ih h]

end SizesBefore

end MojoProse.Sharding
