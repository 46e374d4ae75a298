import MojoProse.Schemes.Loop
import MojoProse.Sharding.Scatter

/-! The shard shapes a mapping declares for a global shape, and the ones that scattering cuts.

    The declared sizes are found by handing a dim from placement to placement. A dim that has become a per-shard one is
    handed on unchanged, so what a later mesh axis does to the same tensor axis is lost; `cutSize` goes on cutting. -/

namespace MojoProse.Sharding

open Schemes RowMajor Placement List Nat Tensor

variable {R : Type*} {dim k d : ℕ}

/-- A dim of a static shape: one size, or one size for each shard. -/
inductive Dim where
  | static (dim : ℕ)
  | perShard (cells : List ℕ)
  deriving DecidableEq, Repr

/-- Wraps the sizes of the shards, or collapses to a plain dim when all are equal. -/
def makePerShardDim : List ℕ → Except Fault Dim
  | [] => .error .emptyPerShard
  | cell :: cells => if ∀ x ∈ cells, x = cell then .ok (.static cell) else .ok (.perShard (cell :: cells))

/-- Splits `globalSize` across `numShards`; sizes differ by at most 1. -/
def shardSizesAlongAxis (globalSize numShards : ℕ) : List ℕ :=
  (range numShards).map fun i =>
    if i < globalSize % numShards then globalSize / numShards + 1 else globalSize / numShards

/-- Splits `parent` along `meshAxis` into per-shard cells; a per-shard dim passes through verbatim. -/
def shardedLocalDim (parent : Dim) (mesh : DeviceMesh) (meshAxis : ℕ) : Except Fault Dim :=
  match parent with
  | .perShard cells => .ok (.perShard cells)
  | .static dim =>
    makePerShardDim <| (range mesh.numDevices).map fun deviceIdx =>
      along (shardSizesAlongAxis dim (mesh.axisSize meshAxis)) (coord mesh.meshShape meshAxis deviceIdx)

/-- The per-shard local cells of `parent` along one mesh axis: only a sharded placement splits. -/
def Placement.localDim (p : Placement) (parent : Dim) (mesh : DeviceMesh) (meshAxis : ℕ) : Except Fault Dim :=
  match p with
  | .sharded _ => shardedLocalDim parent mesh meshAxis
  | _ => .ok parent

/-- The size at `shard`. -/
def localDimAt (d : Dim) (shard : ℕ) : ℕ :=
  match d with
  | .static dim => dim
  | .perShard cells => along cells shard

/-- The axis a placement localizes, from the front, or the error for one the shape does not have. -/
def normAxis (rank : ℕ) (p : Placement) : Except Fault (Option ℕ) :=
  match p.localizedAxis with
  | none => .ok none
  | some axis =>
    match axisIndex rank axis with
    | none => .error (.placementAxis p rank)
    | some a => .ok (some a)

/-- One tensor axis, handed through every mesh axis that localizes it. -/
def wrapDim (mesh : DeviceMesh) (placements : List Placement) (normAxes : List (Option ℕ)) (ti dim : ℕ) :
    Except Fault Dim :=
  (range mesh.ndim).foldlM (fun x meshAxis =>
    if normAxes.getD meshAxis none = some ti then (placementOn placements meshAxis).localDim x mesh meshAxis
    else .ok x) (.static dim)

/-- One shape per device, in row-major mesh order. -/
def localShardShapeFromGlobal (globalShape : List ℕ) (mesh : DeviceMesh) (placements : List Placement) :
    Except Fault (List (List ℕ)) :=
  if placements.length ≠ mesh.ndim then .error (.placementCount mesh.ndim placements.length)
  else do
    let normAxes ← placements.mapM (normAxis globalShape.length)
    let wrapped ← (range globalShape.length).mapM fun ti =>
      wrapDim mesh placements normAxes ti (along globalShape ti)
    pure <| (range mesh.numDevices).map fun r => wrapped.map fun d => localDimAt d r

theorem shardSizesAlongAxis_eq (dim n : ℕ) : shardSizesAlongAxis dim n = evenSplitSizes dim n := by
  refine map_congr_left fun i _ => ?_
  split <;> rfl

theorem makePerShardDim_eq {cells : List ℕ} {x : ℕ} (hne : cells ≠ []) (h : ∀ y ∈ cells, y = x) :
    makePerShardDim cells = .ok (.static x) := by
  cases cells with
  | nil => exact absurd rfl hne
  | cons cell cells =>
    obtain rfl := h cell mem_cons_self
    exact if_pos fun y hy => h y (mem_cons_of_mem _ hy)

theorem makePerShardDim_ne {cells : List ℕ} {x y : ℕ} (hx : x ∈ cells) (hy : y ∈ cells) (hne : x ≠ y) :
    makePerShardDim cells = .ok (.perShard cells) := by
  cases cells with
  | nil => simp at hx
  | cons cell cells =>
    refine if_neg fun h => hne ?_
    have hall : ∀ z ∈ cell :: cells, z = cell := by
      intro z hz
      rcases mem_cons.mp hz with rfl | hz
      · rfl
      · exact h z hz
    rw [hall x hx, hall y hy]

section Declared

variable (mesh : DeviceMesh) {S : ℕ → Prop} [DecidablePred S]

/-- The dim after the mesh axes before `k`: one size, or from the first uneven split on the list of the sizes cut there.
    -/
def Declares (mesh : DeviceMesh) (S : ℕ → Prop) [DecidablePred S] (dim k : ℕ) (x : Dim) : Prop :=
  sizesBefore mesh.meshShape S k ∣ dim ∧ x = .static (dim / sizesBefore mesh.meshShape S k) ∨
    ∃ j < k, S j ∧ sizesBefore mesh.meshShape S j ∣ dim ∧ ¬ sizesBefore mesh.meshShape S (j + 1) ∣ dim ∧
      x = .perShard ((range mesh.numDevices).map fun d => cutSize mesh.meshShape S dim d (j + 1))

theorem cells_eq (hS : S k) (hdvd : sizesBefore mesh.meshShape S k ∣ dim) : ((range mesh.numDevices).map fun d =>
        along (shardSizesAlongAxis (dim / sizesBefore mesh.meshShape S k) (mesh.axisSize k)) (coord mesh.meshShape k d)) =
      (range mesh.numDevices).map fun d => cutSize mesh.meshShape S dim d (k + 1) := by
  refine map_congr_left fun d _ => ?_
  rw [cutSize, if_pos hS, cutSize_of_dvd mesh.meshShape_pos d hdvd, shardSizesAlongAxis_eq]
  rfl

theorem cutSize_first (hS : S k) (hdvd : sizesBefore mesh.meshShape S k ∣ dim)
    (hnot : ¬ sizesBefore mesh.meshShape S (k + 1) ∣ dim) (hc : coord mesh.meshShape k d = 0) :
    cutSize mesh.meshShape S dim d (k + 1) = dim / sizesBefore mesh.meshShape S k / mesh.axisSize k + 1 := by
  rw [sizesBefore_succ, if_pos hS] at hnot
  have hrem : dim / sizesBefore mesh.meshShape S k % mesh.meshShape.getD k 1 ≠ 0 := by
    intro h
    refine hnot ?_
    rw [← Nat.mul_div_cancel' hdvd]
    exact Nat.mul_dvd_mul_left _ (Nat.dvd_of_mod_eq_zero h)
  have hn : 0 < mesh.meshShape.getD k 1 := mesh.axisSize_pos k
  rw [cutSize, if_pos hS, cutSize_of_dvd mesh.meshShape_pos d hdvd, hc, along_evenSplitSizes hn, if_pos (by omega)]
  rfl

theorem cutSize_last (dim : ℕ) (hS : S k) (hc : coord mesh.meshShape k d = mesh.axisSize k - 1) :
    cutSize mesh.meshShape S dim d (k + 1) = cutSize mesh.meshShape S dim d k / mesh.axisSize k := by
  have hn : 0 < mesh.meshShape.getD k 1 := mesh.axisSize_pos k
  have hlt := mod_lt (cutSize mesh.meshShape S dim d k) hn
  rw [DeviceMesh.axisSize] at hc ⊢
  rw [cutSize, if_pos hS, hc, along_evenSplitSizes (by omega), if_neg (by omega), add_zero]

theorem exists_last (k : ℕ) (hk : k < mesh.ndim) : ∃ d < mesh.numDevices,
    coord mesh.meshShape k d = mesh.axisSize k - 1 ∧ ∀ j ≠ k, coord mesh.meshShape j d = 0 := by
  have hlast : mesh.axisSize k - 1 < mesh.meshShape.getD k 1 := sub_one_lt (mesh.axisSize_pos k).ne'
  have hzero : 0 < mesh.meshShape.prod := mesh.numDevices_eq ▸ mesh.numDevices_pos
  refine ⟨moved mesh.meshShape k 0 (mesh.axisSize k - 1), ?_, ?_, fun j hj => ?_⟩
  · exact mesh.numDevices_eq ▸ moved_lt mesh.meshShape_pos hzero hk hlast
  · exact coord_moved_self mesh.meshShape_pos hzero hk hlast
  · rw [coord_moved_ne mesh.meshShape_pos hzero hk hlast hj, coord_zero]

theorem exists_uneven (hk : k < mesh.ndim) (hS : S k) (hdvd : sizesBefore mesh.meshShape S k ∣ dim)
    (hnot : ¬ sizesBefore mesh.meshShape S (k + 1) ∣ dim) : ∃ d < mesh.numDevices, ∃ e < mesh.numDevices,
      cutSize mesh.meshShape S dim d (k + 1) ≠ cutSize mesh.meshShape S dim e (k + 1) := by
  obtain ⟨e, he, hlast, -⟩ := exists_last mesh k hk
  refine ⟨0, mesh.numDevices_pos, e, he, ?_⟩
  rw [cutSize_first mesh hS hdvd hnot coord_zero, cutSize_last mesh dim hS hlast, cutSize_of_dvd mesh.meshShape_pos e hdvd]
  omega

theorem localDimAt_cells {sizes : ℕ → ℕ} (hd : d < mesh.numDevices) :
    localDimAt (.perShard ((range mesh.numDevices).map sizes)) d = sizes d := by
  rw [localDimAt, along_eq_getElem (by simpa using hd), getElem_map, getElem_range]

theorem Declares.step {x : Dim} (hk : k < mesh.ndim) (hS : S k) (h : Declares mesh S dim k x) :
    ∃ y, shardedLocalDim x mesh k = .ok y ∧ Declares mesh S dim (k + 1) y := by
  rcases h with ⟨hdvd, rfl⟩ | ⟨j, hj, hSj, hdvd, hnot, rfl⟩
  · rw [shardedLocalDim, cells_eq mesh hS hdvd]
    by_cases hnext : sizesBefore mesh.meshShape S (k + 1) ∣ dim
    · refine ⟨_, makePerShardDim_eq ?_ ?_, .inl ⟨hnext, rfl⟩⟩
      · simp [mesh.numDevices_pos.ne']
      · simp only [mem_map, forall_exists_index, and_imp]
        rintro y d _ rfl
        exact cutSize_of_dvd mesh.meshShape_pos d hnext
    · obtain ⟨d, hd, e, he, hne⟩ := exists_uneven mesh hk hS hdvd hnext
      exact ⟨_, makePerShardDim_ne (mem_map.mpr ⟨d, by simpa using hd, rfl⟩)
        (mem_map.mpr ⟨e, by simpa using he, rfl⟩) hne, .inr ⟨k, by omega, hS, hdvd, hnext, rfl⟩⟩
  · exact ⟨_, rfl, .inr ⟨j, by omega, hSj, hdvd, hnot, rfl⟩⟩

end Declared

theorem normAxis_ok {rank : ℕ} {p : Placement} (h : p.Placeable rank) : normAxis rank p = .ok (p.tensorAxis rank) := by
  cases p with
  | replicated => rfl
  | partialOf op => exact absurd h id
  | sharded axis =>
    obtain ⟨a, haxis⟩ := Option.isSome_iff_exists.mp h
    simp [normAxis, tensorAxis, localizedAxis, haxis]

theorem localDim_of_splits {rank : ℕ} {ps : List Placement} {a : ℕ} (h : Splits rank ps a k) (x : Dim)
    (mesh : DeviceMesh) : (placementOn ps k).localDim x mesh k = shardedLocalDim x mesh k := by
  unfold Splits at h
  cases hp : placementOn ps k with
  | sharded axis => rfl
  | replicated | partialOf op => simp [hp, tensorAxis, localizedAxis] at h

/-- Every tensor axis is declared as one size, or as the sizes of its first uneven split. -/
theorem exists_wrapDim (mesh : DeviceMesh) (rank : ℕ) (ps : List Placement) (a dim : ℕ) :
    ∃ x, wrapDim mesh ps (ps.map (tensorAxis rank)) a dim = .ok x ∧
      Declares mesh (Splits rank ps a) dim mesh.ndim x := by
  have hnorm : ∀ k, (ps.map (tensorAxis rank)).getD k none = some a ↔ Splits rank ps a k := by
    intro k
    have hmap := getD_map (l := ps) (d := replicated) (n := k) (tensorAxis rank)
    exact iff_of_eq (congrArg (· = some a) hmap)
  refine exists_foldlM_range (fun k x => Declares mesh (Splits rank ps a) dim k x) (fun k hk x hx => ?_) (.inl (by simp))
  simp only [hnorm]
  by_cases hS : Splits rank ps a k
  · rw [if_pos hS, localDim_of_splits hS]
    exact hx.step mesh hk hS
  · refine ⟨x, if_neg hS, ?_⟩
    rcases hx with ⟨hdvd, rfl⟩ | ⟨j, hj, hrest⟩
    · have hsame : sizesBefore mesh.meshShape (Splits rank ps a) (k + 1) =
          sizesBefore mesh.meshShape (Splits rank ps a) k := by rw [sizesBefore_succ, if_neg hS]
      exact .inl ⟨hsame ▸ hdvd, by rw [hsame]⟩
    · exact .inr ⟨j, by omega, hrest⟩

section Compare

variable (mapping : DeviceMapping) (g : Tensor R) {S : ℕ → Prop}

theorem cut_shape (d k : ℕ) : (cut mapping.mesh.meshShape mapping.placements g d k).shape = (range g.rank).map fun a =>
      cutSize mapping.mesh.meshShape (Splits g.rank mapping.placements a) (g.extent a) d k := by
  have hrank := cut_rank mapping.mesh.meshShape mapping.placements g d k
  refine eq_of_along (by simpa [rank] using hrank) fun a ha => ?_
  have ha' : a < g.rank := hrank ▸ ha
  rw [along_eq_getElem (l := (range g.rank).map _) (by simpa using ha'), getElem_map, getElem_range]
  exact cut_extent mapping.mesh.meshShape_pos mapping.placements g ha' d k

theorem exists_localShardShape (hplace : ∀ p ∈ mapping.placements, p.Placeable g.rank) :
    ∃ x : ℕ → Dim, localShardShapeFromGlobal g.shape mapping.mesh mapping.placements =
        .ok ((range mapping.mesh.numDevices).map fun d => (range g.rank).map fun a => localDimAt (x a) d) ∧
      ∀ a, Declares mapping.mesh (Splits g.rank mapping.placements a) (g.extent a) mapping.mesh.ndim (x a) := by
  choose x hwrap hdeclares using fun a =>
    exists_wrapDim mapping.mesh g.rank mapping.placements a (g.extent a)
  refine ⟨x, ?_, hdeclares⟩
  have hnorm : mapping.placements.mapM (normAxis g.shape.length) = .ok (mapping.placements.map (tensorAxis g.rank)) :=
    mapM_ok fun p hp => normAxis_ok (hplace p hp)
  have hwrapped : (range g.shape.length).mapM (fun ti => wrapDim mapping.mesh mapping.placements
      (mapping.placements.map (tensorAxis g.rank)) ti (along g.shape ti)) = .ok ((range g.rank).map x) :=
    mapM_ok fun a _ => hwrap a
  rw [localShardShapeFromGlobal, if_neg (not_not.mpr mapping.placements_length), hnorm]
  simp only [ok_bind, hwrapped, pure_eq_ok, map_map]
  rfl

/-- After the first uneven split only axes of size 1 may follow. -/
theorem cutSize_eq_of_ones {ns : List ℕ} [DecidablePred S] (hpos : ∀ n ∈ ns, 0 < n) {j : ℕ}
    (hjk : j ≤ k) (hones : ∀ i, j ≤ i → i < k → S i → ns.getD i 1 = 1) :
    cutSize ns S dim d k = cutSize ns S dim d j := by
  induction k, hjk using le_induction with
  | base => rfl
  | succ k hjk ih =>
    rw [cutSize, ih fun i hji hik => hones i hji (by omega)]
    split
    next hS =>
      have hone := hones k hjk (by omega) hS
      have hc : coord ns k d < ns.getD k 1 := coord_lt hpos
      rw [along_evenSplitSizes_of_dvd hc (by rw [hone]; exact one_dvd _), hone, Nat.div_one]
    next => rfl

/-- The declared size is the one cut, if no split comes after an uneven one. -/
theorem Declares.size_eq {mesh : DeviceMesh} [DecidablePred S] {x : Dim} (h : Declares mesh S dim mesh.ndim x)
    (hcond : ∀ k < mesh.ndim, S k → mesh.axisSize k ≠ 1 → sizesBefore mesh.meshShape S k ∣ dim)
    (hd : d < mesh.numDevices) : localDimAt x d = cutSize mesh.meshShape S dim d mesh.ndim := by
  rcases h with ⟨hdvd, rfl⟩ | ⟨j, hj, hSj, hdvd, hnot, rfl⟩
  · exact (cutSize_of_dvd mesh.meshShape_pos d hdvd).symm
  · rw [localDimAt_cells mesh hd, eq_comm]
    refine cutSize_eq_of_ones mesh.meshShape_pos (by omega) fun i hji hi hS => ?_
    by_contra hone
    exact hnot ((sizesBefore_dvd hji).trans (hcond i hi hS hone))

/-- A split after an uneven one leaves some device less than is declared. -/
theorem Declares.exists_ne {mesh : DeviceMesh} [DecidablePred S] {x : Dim}
    (h : Declares mesh S dim mesh.ndim x) (hk : k < mesh.ndim) (hS : S k) (hone : mesh.axisSize k ≠ 1)
    (hbad : ¬ sizesBefore mesh.meshShape S k ∣ dim) :
    ∃ d < mesh.numDevices, localDimAt x d ≠ cutSize mesh.meshShape S dim d mesh.ndim := by
  rcases h with ⟨hdvd, rfl⟩ | ⟨j, hj, hSj, hdvd, hnot, rfl⟩
  · exact absurd ((sizesBefore_dvd hk.le).trans hdvd) hbad
  · have hjk : j < k := by
      by_contra hle
      exact hbad ((sizesBefore_dvd (by omega)).trans hdvd)
    -- The device at the start of the uneven split and at the end of the later one.
    obtain ⟨d, hd, hlast, hothers⟩ := exists_last mesh k hk
    refine ⟨d, hd, ?_⟩
    have hfst := cutSize_first mesh hSj hdvd hnot (hothers j hjk.ne)
    have hlater := cutSize_last mesh dim hS hlast
    have hle := cutSize_le_of_le mesh.meshShape_pos S dim d (show j + 1 ≤ k by omega)
    have hend := cutSize_le_of_le mesh.meshShape_pos S dim d (show k + 1 ≤ mesh.ndim by omega)
    have hhalf : cutSize mesh.meshShape S dim d k / mesh.axisSize k ≤ cutSize mesh.meshShape S dim d k / 2 :=
      div_le_div_left (by have hpos := mesh.axisSize_pos k; omega) (by omega)
    have hpos : 0 < cutSize mesh.meshShape S dim d (j + 1) := hfst ▸ succ_pos _
    rw [localDimAt_cells mesh hd]
    omega

/-- Scattering a tensor whose sharded axes have at least two positions gives every device its cut. -/
theorem scatter_eq_cuts (hplace : ∀ p ∈ mapping.placements, p.Placeable g.rank)
    (hsize : ∀ p ∈ mapping.placements, ∀ a, p.tensorAxis g.rank = some a → 2 ≤ g.extent a) :
    scatter g mapping = .ok ((range mapping.mesh.numDevices).map fun d =>
      cut mapping.mesh.meshShape mapping.placements g d mapping.mesh.ndim) := by
  have hnames : mapping.placements.length ≤ mapping.mesh.axisNames.length := by
    rw [mapping.placements_length, mapping.mesh.axisNames_length, DeviceMesh.ndim]
  have hnone : sizeOneFault mapping.mesh.axisNames g.shape mapping.placements = none := by
    refine (sizeOneFault_eq_none hnames).mpr fun axis hmem hlow hhigh hone => ?_
    obtain ⟨a, rfl⟩ := Int.eq_ofNat_of_zero_le hlow
    have hspl : (sharded a).tensorAxis g.rank = some a := axisIndex_natCast (by simpa [rank] using hhigh)
    have htwo := hsize _ hmem a hspl
    rw [Int.toNat_natCast] at hone
    rw [extent] at htwo
    omega
  rw [scatter, hnone, mapping.mesh.numDevices_eq]
  exact scatterLoop_eq mapping.mesh.meshShape_pos mapping.placements_length hplace

/-- The declared shapes are the scattered ones, and so add up to the global shape, exactly if no split follows an uneven
    one: before every mesh axis of a size other than 1, the earlier axes that split the same tensor axis divide it. -/
theorem localShardShape_scattered_iff (hplace : ∀ p ∈ mapping.placements, p.Placeable g.rank)
    (hsize : ∀ p ∈ mapping.placements, ∀ a, p.tensorAxis g.rank = some a → 2 ≤ g.extent a) :
    (∃ shards shapes, scatter g mapping = .ok shards ∧
        localShardShapeFromGlobal g.shape mapping.mesh mapping.placements = .ok shapes ∧
        shapes = shards.map shape ∧ ∀ a < g.rank, ∀ d < mapping.mesh.numDevices,
          ∑ e ∈ partners mapping.mesh.meshShape (Splits g.rank mapping.placements a) d, along (shapes.getD e []) a =
            g.extent a) ↔
      ∀ a < g.rank, ∀ k < mapping.mesh.ndim, Splits g.rank mapping.placements a k → mapping.mesh.axisSize k ≠ 1 →
        sizesBefore mapping.mesh.meshShape (Splits g.rank mapping.placements a) k ∣ g.extent a := by
  obtain ⟨x, hdeclared, hx⟩ := exists_localShardShape mapping g hplace
  have hscatter := scatter_eq_cuts mapping g hplace hsize
  constructor
  · rintro ⟨shards, shapes, hshards, hshapes, hsame, -⟩ a ha k hk hS hone
    by_contra hbad
    obtain ⟨d, hd, hne⟩ := (hx a).exists_ne hk hS hone hbad
    obtain rfl := Except.ok.inj (hscatter.symm.trans hshards)
    obtain rfl := Except.ok.inj (hdeclared.symm.trans hshapes)
    rw [map_map] at hsame
    have hdevice := map_inj_left.mp hsame d (by simpa using hd)
    rw [Function.comp_apply, cut_shape] at hdevice
    exact hne (map_inj_left.mp hdevice a (by simpa using ha))
  · intro hcond
    have hsizes : ∀ a < g.rank, ∀ d < mapping.mesh.numDevices, localDimAt (x a) d =
        cutSize mapping.mesh.meshShape (Splits g.rank mapping.placements a) (g.extent a) d mapping.mesh.ndim :=
      fun a ha d hd => (hx a).size_eq (hcond a ha) hd
    refine ⟨_, _, hscatter, hdeclared, ?_, fun a ha d hd => ?_⟩
    · rw [map_map]
      refine map_congr_left fun d hd => ?_
      rw [Function.comp_apply, cut_shape]
      exact map_congr_left fun a ha => hsizes a (mem_range.mp ha) d (mem_range.mp hd)
    · have hd' : d < mapping.mesh.meshShape.prod := mapping.mesh.numDevices_eq ▸ hd
      have hsum := sum_cutSize mapping.mesh.meshShape_pos (Splits g.rank mapping.placements a) (g.extent a) hd'
        (le_refl mapping.mesh.meshShape.length)
      refine Eq.trans (Finset.sum_congr ?_ fun e he => ?_) hsum
      · ext e
        simp only [mem_partners]
        exact and_congr_right fun _ => forall₂_congr fun k hk => by rw [and_iff_right hk]
      · have he' := mapping.mesh.numDevices_eq ▸ (mem_partners.mp he).1
        have hget : ((range mapping.mesh.numDevices).map fun d =>
            (range g.rank).map fun a => localDimAt (x a) d).getD e [] =
            (range g.rank).map fun a => localDimAt (x a) e := by
          rw [getD_eq_getElem _ _ (by simpa using he'), getElem_map, getElem_range]
        rw [hget, along_eq_getElem (by simpa using ha), getElem_map, getElem_range]
        exact hsizes a ha e he'

end Compare

/-- Four devices in two rows of two. -/
def squareMesh : DeviceMesh where
  devices := [0, 1, 2, 3]
  meshShape := [2, 2]
  axisNames := ["dp", "tp"]
  devices_ne_nil := by decide
  devices_length := rfl
  axisNames_length := rfl
  axisNames_nodup := by decide
  devices_uniform := .inr (by decide)

def squareRows : DeviceMapping where
  mesh := squareMesh
  placements := [.sharded 0, .sharded 0]
  placements_length := rfl

/-- The vector `0, 1, …` of a given length. -/
def countTensor (n : ℕ) : Tensor ℤ where
  shape := [n]
  entry i _ := along i 0

theorem localShardShape_scattered_iff_four : ∃ shards shapes, scatter (countTensor 4) squareRows = .ok shards ∧
      localShardShapeFromGlobal [4] squareMesh squareRows.placements = .ok shapes ∧ shapes = shards.map shape := by
  have hplace : ∀ p ∈ squareRows.placements, p.Placeable (countTensor 4).rank := by decide
  have hsize : ∀ p ∈ squareRows.placements, ∀ a, p.tensorAxis (countTensor 4).rank = some a →
      2 ≤ (countTensor 4).extent a := by
    intro p hp a ha
    simp only [squareRows, mem_cons, not_mem_nil, or_false, or_self] at hp
    subst hp
    obtain rfl : 0 = a := Option.some.inj ha
    decide
  obtain ⟨shards, shapes, hshards, hshapes, hsame, -⟩ :=
    (localShardShape_scattered_iff squareRows (countTensor 4) hplace hsize).mpr (by decide)
  exact ⟨shards, shapes, hshards, hshapes, hsame⟩

/-- Three positions over two rows of two: two and one are declared in each row, but each row is cut again. -/
theorem localShardShape_uneven :
    localShardShapeFromGlobal [3] squareMesh squareRows.placements = .ok [[2], [2], [1], [1]] ∧
      ∃ shards, scatter (countTensor 3) squareRows = .ok shards ∧ shards.map shape = [[1], [1], [1], [0]] :=
  ⟨rfl, _, rfl, rfl⟩

end MojoProse.Sharding
