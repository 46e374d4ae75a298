import MojoProse.Sharding.Scatter

/-! `sum`, `mean` and `cumsum` of a tensor on a one-axis mesh, with the result moved to every device.

    Each device works on its shard. A shard along another axis has whole lines of the reduced one (`onMesh_other_axis`);
    a shard along the reduced axis has parts of them, and the results are added (`onMesh_reduced_axis`), which is right
    for `sum` only. -/

namespace MojoProse.Sharding

open Schemes List Tensor Except Nat

/-- The reductions, with the options of `cumsum`. -/
inductive Reduction where
  | sum
  | mean
  | cumsum (exclusive reverse : Bool)
  deriving DecidableEq, Repr

namespace Reduction

/-- The extent that is left of the axis. -/
def size : Reduction → ℕ → ℕ
  | cumsum _ _, m => m
  | _, _ => 1

/-- The sums of the entries up to each one, without it if `exclusive`. -/
def runningSums (exclusive : Bool) (l : List ℚ) : List ℚ :=
  if exclusive then (l.inits.map List.sum).dropLast else (l.inits.map List.sum).tail

/-- What becomes of a line along the axis. -/
def run : Reduction → List ℚ → List ℚ
  | sum, l => [l.sum]
  | mean, l => [l.sum / l.length]
  | cumsum exclusive false, l => runningSums exclusive l
  | cumsum exclusive true, l => (runningSums exclusive l.reverse).reverse

def graphOp (op : Reduction) (x : Tensor ℚ) (axis : ℤ) : Except Fault (Tensor ℚ) :=
  match axisIndex x.rank axis with
  | none => .error (.axisOutOfRange axis x.rank)
  | some a => .ok (x.onLines op.size op.run a)

end Reduction

/-- One row of a rule: the placement the input needs, and the one the output has. -/
structure AxisAssignment where
  neededInput : Placement
  output : Placement

/-- `Sharded(d) -> Sharded(d)` rows over every non-reduction axis. -/
def nonReductionAxisRows (rank : ℕ) (axis : ℤ) : List AxisAssignment :=
  ((range rank).filter fun d => (d : ℤ) ≠ axis % rank).map fun d => ⟨.sharded d, .sharded d⟩

/-- The rows of a reduction that leaves results of `reduceOp` pending along the reduced axis. -/
def pendingRule (reduceOp : ReduceOp) (rank : ℕ) (axis : ℤ) : List AxisAssignment :=
  ⟨.replicated, .replicated⟩ :: nonReductionAxisRows rank axis ++
    [⟨.sharded (axis % rank), .partialOf reduceOp⟩, ⟨.partialOf reduceOp, .partialOf reduceOp⟩]

/-- Linear reduction, shared by `sum` and `cumsum`. -/
def linearReduceRule : ℕ → ℤ → List AxisAssignment := pendingRule .sum

/-- Mean is linear with reduction op AVG. -/
def meanRule : ℕ → ℤ → List AxisAssignment := pendingRule .avg

def Reduction.rule : Reduction → ℕ → ℤ → List AxisAssignment
  | mean => meanRule
  | _ => linearReduceRule

section Collectives

variable {R : Type*} [Add R]

/-- Every device ends up with the sum of all shards; their shapes must agree. -/
def allreduceSum (shards : List (Tensor R)) : Except Fault (List (Tensor R)) :=
  (addAll shards).map (replicate shards.length)

/-- Every device concatenates all shards along `tensorAxis`. -/
def allgather (shards : List (Tensor R)) (tensorAxis : ℤ) : Except Fault (List (Tensor R)) :=
  (concat shards tensorAxis).map (replicate shards.length)

/-- `transfer_to` with the target `Replicated`: any pending reduction but min and max is resolved by a sum. -/
def transferToReplicated (source : Placement) (shards : List (Tensor R)) : Except Fault (List (Tensor R)) :=
  match source with
  | .replicated => .ok shards
  | .sharded axis => allgather shards axis
  | .partialOf reduceOp =>
    if reduceOp = .min ∨ reduceOp = .max then .error (.noTransition source .replicated) else allreduceSum shards

end Collectives

/-- The op on a tensor placed by `p` on `n` devices, with the row its rule offers for `p`, moved to `Replicated`. -/
def Reduction.onMesh (op : Reduction) (n : ℕ) (p : Placement) (axis : ℤ) (x : Tensor ℚ) :
    Except Fault (List (Tensor ℚ)) :=
  -- On one device the tensor is not distributed.
  if n = 1 then (op.graphOp x axis).map fun y => [y]
  else do
    let shards ← scatterLoop [n] [p] [x]
    match (op.rule x.rank axis).find? (·.neededInput = p) with
    | none => .error .noAction
    | some row =>
      let results ← shards.mapM fun shard => op.graphOp shard axis
      transferToReplicated row.output results

section Chunks

variable {R : Type*}

variable (t : Tensor R)

def chunks (a n : ℕ) : List (Tensor R) := (range n).map (chunk t a n)

theorem headShape_chunks (a : ℕ) {n : ℕ} (hn : 0 < n) :
    headShape (chunks t a n) = t.shape.set a (along (evenSplitSizes (t.extent a) n) 0) := by
  obtain ⟨m, rfl⟩ := exists_eq_add_one_of_ne_zero hn.ne'
  rw [chunks, range_succ_eq_map, map_cons]
  exact chunk_shape _ _ hn

theorem extent_chunk {a n c : ℕ} (ha : a < t.rank) (hc : c < n) :
    (chunk t a n c).extent a = along (evenSplitSizes (t.extent a) n) c := by
  rw [extent, chunk_shape _ _ hc, along_set_self ha]

theorem concat_chunks [Zero R] {a n : ℕ} (ha : a < t.rank) (hn : 0 < n) : Tensor.concat a (chunks t a n) = some t := by
  have hextents : (chunks t a n).map (fun t => t.extent a) = evenSplitSizes (t.extent a) n := by
    rw [chunks, map_map, evenSplitSizes]
    refine map_congr_left fun c hc => ?_
    have hc' := mem_range.mp hc
    exact (extent_chunk t ha hc').trans (along_evenSplitSizes hc')
  have hjoinable : Joinable a (chunks t a n) := by
    rw [Joinable, headShape_chunks t a hn]
    refine ⟨by rwa [length_set], fun u hu => ?_⟩
    obtain ⟨c, hc, rfl⟩ := mem_map.mp hu
    rw [chunk_shape _ _ (mem_range.mp hc), set_set, set_set]
  have hshape : (join a _ hjoinable).shape = t.shape := by
    rw [join_shape, headShape_chunks t a hn, hextents, sum_evenSplitSizes hn, set_set, extent, set_along_self]
  rw [concat_of_joinable hjoinable]
  refine congrArg some (ext_read hshape fun i hi => ?_)
  have hat : along i a < (evenSplitSizes (t.extent a) n).sum := by
    rw [sum_evenSplitSizes hn]
    exact (hshape ▸ hi).along_lt ha
  obtain ⟨hblk, hplace, hsum⟩ := locate_spec hat
  rw [length_evenSplitSizes] at hblk
  have hget : (chunks t a n)[(locate (evenSplitSizes (t.extent a) n) (along i a)).1]? =
      some (chunk t a n (locate (evenSplitSizes (t.extent a) n) (along i a)).1) := by
    rw [chunks, getElem?_map, getElem?_range hblk, Option.map_some]
  obtain ⟨hin, hread⟩ := read_join hjoinable hi (by rw [hextents]) hget
  have hlen : a < i.length := by
    rw [hi.length_eq, hshape]
    exact ha
  rw [hread, chunk, read_narrow _ hin, along_set_self hlen, set_set, hsum, set_along_self]

theorem allgather_chunks [Zero R] [Add R] {a n : ℕ} (ha : a < t.rank) (hn : 0 < n) :
    allgather (chunks t a n) a = .ok (List.replicate n t) := by
  have haxis : axisIndex (headShape (chunks t a n)).length a = some a := by
    rw [headShape_chunks t a hn, length_set]
    exact axisIndex_natCast ha
  rw [allgather, concat_ok haxis (concat_chunks t ha hn)]
  simp [chunks, Except.map]

/-- Working on the lines of one axis commutes with chunks of another. -/
theorem onLines_chunk [Zero R] {size : ℕ → ℕ} {run : List R → List R} {a d : ℕ} (hne : d ≠ a) (n c : ℕ) :
    (chunk t d n c).onLines size run a = chunk (t.onLines size run a) d n c := by
  have hext : (t.onLines size run a).extent d = t.extent d := along_set_ne hne.symm _
  rw [chunk, chunk, hext]
  exact onLines_narrow t hne _ _

end Chunks

variable {shape i : List ℕ}

section Sums

variable {R : Type*}

theorem add_ok [Add R] {x y r : Tensor R} (h : add x y = .ok r) : r.shape = x.shape := by
  rw [add] at h
  split at h
  · obtain rfl := ok.inj h
    rfl
  · cases h

theorem addAll_shape [Add R] {t r : Tensor R} {ts : List (Tensor R)} (h : addAll (t :: ts) = .ok r) :
    r.shape = t.shape := by
  induction ts generalizing t with
  | nil =>
    obtain rfl := ok.inj h
    rfl
  | cons u ts ih =>
    rw [addAll, foldlM_cons] at h
    cases hu : add t u with
    | error e => simp [hu] at h
    | ok s =>
      rw [hu] at h
      exact (ih h).trans (add_ok hu)

theorem addAll_append [Add R] {t : Tensor R} {ts : List (Tensor R)} (hne : ts ≠ []) :
    addAll (ts ++ [t]) = (addAll ts).bind fun r => add r t := by
  obtain ⟨u, ts, rfl⟩ := exists_cons_of_ne_nil hne
  rw [cons_append, addAll, addAll, foldlM_append]
  simp only [foldlM_cons, foldlM_nil, bind_pure]
  rfl

theorem addAll_range [AddCommMonoid R] {f : ℕ → Tensor R} {n : ℕ} (hn : 0 < n)
    (hshape : ∀ c < n, (f c).shape = shape) : ∃ r, addAll ((range n).map f) = .ok r ∧ r.shape = shape ∧
      ∀ i, Inside i shape → r.read i = ∑ c ∈ Finset.range n, (f c).read i := by
  induction n, hn using le_induction with
  | base => exact ⟨f 0, rfl, hshape 0 one_pos, by simp⟩
  | succ n hn ih =>
    obtain ⟨r, hok, hr, hread⟩ := ih fun c hc => hshape c (by omega)
    have hlast : r.shape = (f n).shape := hr.trans (hshape n (by omega)).symm
    have hne : (range n).map f ≠ [] := by simpa using ne_of_gt hn
    refine ⟨⟨r.shape, fun i hi => r.entry i hi + (f n).entry i (hlast ▸ hi)⟩, ?_, hr, fun i hi => ?_⟩
    · rw [range_succ, map_append, map_singleton, addAll_append hne, hok]
      exact dif_pos hlast
    · have hir : Inside i r.shape := hr ▸ hi
      rw [Finset.sum_range_succ, ← hread i hi, r.read_eq hir, (f n).read_eq (hlast ▸ hir)]
      exact dif_pos hir

theorem sum_line_chunk (t : Tensor ℚ) {a n c m : ℕ} (ha : a < t.rank) (hc : c < n) (hi : Inside i (t.shape.set a m)) :
    ((chunk t a n c).line a i).sum = ∑ k ∈ Finset.range (along (evenSplitSizes (t.extent a) n) c),
      t.read (i.set a (((evenSplitSizes (t.extent a) n).take c).sum + k)) := by
  have hlen : a < i.length := by
    rw [hi.length_eq, length_set]
    exact ha
  have hi' : Inside i ((chunk t a n c).shape.set a m) := by rwa [chunk_shape t a hc, set_set]
  have hline : ((chunk t a n c).line a i).sum =
      ∑ k ∈ Finset.range ((chunk t a n c).extent a), (chunk t a n c).read (i.set a k) := rfl
  rw [hline, extent_chunk t ha hc]
  refine Finset.sum_congr rfl fun k hk => ?_
  have hk' : k < (chunk t a n c).extent a := by
    rw [extent_chunk t ha hc]
    exact Finset.mem_range.mp hk
  rw [chunk, read_narrow _ (inside_line _ hi' hk'), along_set_self hlen, set_set]

theorem sum_windows {M : Type*} [AddCommMonoid M] (g : ℕ → M) (sizes : List ℕ) (m : ℕ) :
    ∑ c ∈ Finset.range m, ∑ k ∈ Finset.range (along sizes c), g ((sizes.take c).sum + k) =
      ∑ x ∈ Finset.range (sizes.take m).sum, g x := by
  induction m with
  | zero => simp
  | succ m ih =>
    have htake : (sizes.take (m + 1)).sum = (sizes.take m).sum + along sizes m := by
      rw [← sum_along, ← sum_along, Finset.sum_range_succ]
    rw [Finset.sum_range_succ, ih, htake, Finset.sum_range_add]

end Sums

namespace Reduction

variable {op : Reduction} {n a : ℕ} {axis : ℤ} {x : Tensor ℚ}

theorem graphOp_ok (op : Reduction) (haxis : axisIndex x.rank axis = some a) :
    op.graphOp x axis = .ok (x.onLines op.size op.run a) := by
  rw [graphOp, haxis]

theorem emod_of_axisIndex {rank : ℕ} (haxis : axisIndex rank axis = some a) : axis % rank = a := by
  rw [axisIndex] at haxis
  split at haxis
  next h =>
    obtain rfl := Option.some.inj haxis
    rw [Int.toNat_of_nonneg h.1, Int.emod_eq_of_lt h.1 h.2]
  next h =>
    split at haxis
    next h' =>
      obtain rfl := Option.some.inj haxis
      rw [Int.toNat_of_nonneg (by omega), ← Int.add_emod_right, Int.emod_eq_of_lt (by omega) (by omega)]
    next h' => cases haxis

/-- What the row for the reduced axis leaves pending. -/
def pending : Reduction → ReduceOp
  | mean => .avg
  | _ => .sum

theorem rule_eq (op : Reduction) : op.rule = pendingRule op.pending := by
  cases op <;> rfl

/-- The row that is offered: shards of the reduced axis become pending, other placements stay. -/
theorem find_rule (op : Reduction) {rank : ℕ} (haxis : axisIndex rank axis = some a) {p : Placement}
    (hp : p = .replicated ∨ ∃ d : ℕ, p = .sharded d ∧ d < rank) :
    ∃ row, (op.rule rank axis).find? (·.neededInput = p) = some row ∧
      row.output = if p = .sharded a then .partialOf op.pending else p := by
  have hmem : ∃ row ∈ op.rule rank axis, row.neededInput = p := by
    simp only [rule_eq, pendingRule, nonReductionAxisRows, emod_of_axisIndex haxis]
    rcases hp with rfl | ⟨d, rfl, hd⟩
    · exact ⟨_, mem_cons_self, rfl⟩
    · rcases eq_or_ne d a with rfl | hne
      · exact ⟨⟨.sharded d, .partialOf op.pending⟩, by simp, rfl⟩
      · exact ⟨⟨.sharded d, .sharded d⟩, by simp [hd, hne], rfl⟩
  have hsome : ((op.rule rank axis).find? (·.neededInput = p)).isSome := by simpa using hmem
  obtain ⟨row, hrow⟩ := Option.isSome_iff_exists.mp hsome
  have hin := mem_of_find?_eq_some hrow
  have hneeded : row.neededInput = p := by simpa using find?_some hrow
  refine ⟨row, hrow, ?_⟩
  subst hneeded
  simp only [rule_eq, pendingRule, nonReductionAxisRows, emod_of_axisIndex haxis, cons_append, mem_cons,
    mem_append, mem_map, mem_filter, not_mem_nil, or_false, decide_eq_true_eq, ne_eq] at hin
  rcases hin with rfl | ⟨d, ⟨-, hne⟩, rfl⟩ | rfl | rfl
  · rfl
  · exact (if_neg (by simpa using hne)).symm
  · exact (if_pos rfl).symm
  · simp at hp

theorem onMesh_eq (hn : n ≠ 1) (haxis : axisIndex x.rank axis = some a) {p : Placement}
    (hp : p = .replicated ∨ ∃ d : ℕ, p = .sharded d ∧ d < x.rank) {shard : ℕ → Tensor ℚ}
    (hscatter : scatterLoop [n] [p] [x] = .ok ((range n).map shard)) (hrank : ∀ c, (shard c).rank = x.rank) :
    op.onMesh n p axis x = transferToReplicated (if p = .sharded a then .partialOf op.pending else p)
      ((range n).map fun c => (shard c).onLines op.size op.run a) := by
  obtain ⟨row, hrow, houtput⟩ := find_rule op haxis hp
  have hresults : ((range n).map shard).mapM (fun y => op.graphOp y axis) =
      .ok (((range n).map shard).map fun y => y.onLines op.size op.run a) := by
    refine mapM_ok fun y hy => ?_
    obtain ⟨c, -, rfl⟩ := mem_map.mp hy
    exact graphOp_ok op (by rwa [hrank c])
  rw [onMesh, if_neg hn, hscatter]
  simp only [ok_bind, hrow, hresults, houtput, map_map]
  rfl

theorem onMesh_replicated (hn : n ≠ 1) (haxis : axisIndex x.rank axis = some a) :
    op.onMesh n .replicated axis x = .ok (replicate n (x.onLines op.size op.run a)) := by
  have hscatter : scatterLoop [n] [.replicated] [x] = .ok ((range n).map fun _ => x) := by
    simp [scatterLoop]
  rw [onMesh_eq hn haxis (.inl rfl) hscatter fun _ => rfl]
  simp [transferToReplicated]

theorem scatterLoop_sharded {d : ℕ} (hd : d < x.rank) (hn : 0 < n) :
    scatterLoop [n] [.sharded d] [x] = .ok ((range n).map (chunk x d n)) := by
  simp [scatterLoop, evenSplitAlongAxis_ok (axisIndex_natCast hd) hn]

theorem onMesh_other_axis (hn : n ≠ 1) (hpos : 0 < n) (haxis : axisIndex x.rank axis = some a) {d : ℕ} (hd : d < x.rank)
    (hne : d ≠ a) : op.onMesh n (.sharded d) axis x = .ok (replicate n (x.onLines op.size op.run a)) := by
  have hd' : d < (x.onLines op.size op.run a).rank := by
    rw [rank, onLines, length_set]
    exact hd
  rw [onMesh_eq hn haxis (.inr ⟨d, rfl, hd⟩) (scatterLoop_sharded hd hpos) (chunk_rank x d n),
    if_neg (by simpa using hne)]
  simp only [onLines_chunk x hne]
  exact allgather_chunks _ hd' hpos

theorem onMesh_reduced_axis (hn : n ≠ 1) (hpos : 0 < n) (haxis : axisIndex x.rank axis = some a) :
    op.onMesh n (.sharded a) axis x =
      allreduceSum ((range n).map fun c => (chunk x a n c).onLines op.size op.run a) := by
  have ha := axisIndex_lt haxis
  rw [onMesh_eq hn haxis (.inr ⟨a, rfl, ha⟩) (scatterLoop_sharded ha hpos) (chunk_rank x a n), if_pos rfl]
  exact if_neg (by cases op <;> simp [pending])

theorem along_of_inside_one {a : ℕ} (ha : a < shape.length) (hi : Inside i (shape.set a 1)) : along i a = 0 := by
  have hlt := hi.along_lt (by rwa [length_set])
  rw [along_set_self ha] at hlt
  omega

/-- Where one entry is left of each line, the devices' entries are added. -/
theorem exists_reduced (hn : n ≠ 1) (hpos : 0 < n) (haxis : axisIndex x.rank axis = some a)
    (hsize : ∀ m, op.size m = 1) :
    ∃ r, op.onMesh n (.sharded a) axis x = .ok (replicate n r) ∧ r.shape = x.shape.set a 1 ∧
      ∀ i, Inside i (x.shape.set a 1) →
        r.read i = ∑ c ∈ Finset.range n, (op.run ((chunk x a n c).line a i)).getD 0 0 := by
  have ha := axisIndex_lt haxis
  have hshape : ∀ c < n, ((chunk x a n c).onLines op.size op.run a).shape = x.shape.set a 1 := by
    intro c hc
    rw [onLines, hsize, chunk_shape x a hc, set_set]
  obtain ⟨r, hok, hr, hread⟩ := addAll_range hpos hshape
  refine ⟨r, ?_, hr, fun i hi => ?_⟩
  · rw [onMesh_reduced_axis hn hpos haxis, allreduceSum, hok]
    simp [Except.map]
  · rw [hread i hi]
    refine Finset.sum_congr rfl fun c hc => ?_
    rw [read_onLines _ (hshape c (Finset.mem_range.mp hc) ▸ hi), along_of_inside_one ha hi]

/-- The sums of the parts of a line add up to the sum of the line. -/
theorem onMesh_sum (hn : n ≠ 1) (hpos : 0 < n) (haxis : axisIndex x.rank axis = some a) :
    sum.onMesh n (.sharded a) axis x = .ok (replicate n (x.onLines sum.size sum.run a)) := by
  have ha := axisIndex_lt haxis
  obtain ⟨r, hok, hr, hread⟩ := @exists_reduced sum n a axis x hn hpos haxis fun _ => rfl
  suffices hwhole : r = x.onLines sum.size sum.run a by rw [hok, hwhole]
  refine ext_read hr fun i hi => ?_
  rw [hr] at hi
  have hline : (x.line a i).sum = ∑ k ∈ Finset.range (x.extent a), x.read (i.set a k) := rfl
  have hparts : ∀ c ∈ Finset.range n, (sum.run ((chunk x a n c).line a i)).getD 0 0 =
      ∑ k ∈ Finset.range (along (evenSplitSizes (x.extent a) n) c),
        x.read (i.set a (((evenSplitSizes (x.extent a) n).take c).sum + k)) :=
    fun c hc => sum_line_chunk x ha (Finset.mem_range.mp hc) hi
  rw [hread i hi, Finset.sum_congr rfl hparts, sum_windows fun k => x.read (i.set a k),
    take_of_length_le (by simp), sum_evenSplitSizes hpos, ← hline, read_onLines _ hi,
    along_of_inside_one ha hi]
  rfl

def ones (shape : List ℕ) : Tensor ℚ := ⟨shape, fun _ _ => 1⟩

theorem line_of_const {t : Tensor ℚ} (ht : ∀ i (hi : Inside i t.shape), t.entry i hi = 1) {m : ℕ}
    (hi : Inside i (t.shape.set a m)) : t.line a i = replicate (t.extent a) 1 := by
  refine eq_replicate_iff.mpr ⟨by simp [line], fun y hy => ?_⟩
  obtain ⟨k, hk, rfl⟩ := mem_map.mp hy
  have hin := inside_line t hi (mem_range.mp hk)
  rw [t.read_eq hin, ht]

theorem run_mean_replicate {m : ℕ} (hm : 0 < m) : (mean.run (replicate m 1)).getD 0 0 = 1 := by
  have hne : (m : ℚ) ≠ 0 := cast_ne_zero.mpr hm.ne'
  simp [run, hne]

theorem along_evenSplitSizes_pos {dim c : ℕ} (hdim : n ≤ dim) (hc : c < n) : 0 < along (evenSplitSizes dim n) c := by
  have hdiv : 0 < dim / n := div_pos hdim (by omega)
  rw [along_evenSplitSizes hc]
  omega

theorem onMesh_mean_ne (hn : n ≠ 1) (haxis : axisIndex shape.length axis = some a)
    (hdim : n ≤ along shape a) (hpos : 0 < n) (hfull : ∀ b < shape.length, b ≠ a → along shape b ≠ 0) :
    mean.onMesh n (.sharded a) axis (ones shape) ≠ .ok (replicate n ((ones shape).onLines mean.size mean.run a)) := by
  intro heq
  have ha := axisIndex_lt haxis
  obtain ⟨r, hok, hr, hread⟩ := @exists_reduced mean n a axis (ones shape) hn hpos haxis fun _ => rfl
  have hwhole : r = (ones shape).onLines mean.size mean.run a := by
    have hsame := ok.inj (hok.symm.trans heq)
    exact replicate_right_injective hpos.ne' hsame
  have hi : Inside (replicate shape.length 0) (shape.set a 1) := by
    refine inside_iff.mpr ⟨by simp, fun b hb => ?_⟩
    rw [length_set] at hb
    rw [along_eq_getElem (by simpa using hb), getElem_replicate]
    rcases eq_or_ne a b with rfl | hne
    · rw [along_set_self hb]
      exact one_pos
    · rw [along_set_ne hne]
      exact pos_of_ne_zero (hfull b hb hne.symm)
  have hdevice : ∀ c ∈ Finset.range n,
      (mean.run ((chunk (ones shape) a n c).line a (replicate shape.length 0))).getD 0 0 = 1 := by
    intro c hc
    have hc' := Finset.mem_range.mp hc
    have hi' : Inside (replicate shape.length 0) ((chunk (ones shape) a n c).shape.set a 1) := by
      rw [chunk_shape _ _ hc', set_set]
      exact hi
    rw [line_of_const (fun _ _ => rfl) hi', extent_chunk _ ha hc']
    exact run_mean_replicate (along_evenSplitSizes_pos hdim hc')
  have hleft := hread _ hi
  rw [Finset.sum_congr rfl hdevice, hwhole, read_onLines _ hi, along_of_inside_one ha hi,
    line_of_const (fun _ _ => rfl) hi,
    run_mean_replicate (m := (ones shape).extent a) (hpos.trans_le hdim)] at hleft
  have hone : (n : ℚ) = 1 := by simpa using hleft.symm
  exact hn (by exact_mod_cast hone)

theorem onMesh_cumsum_ne (hn : 2 ≤ n) (haxis : axisIndex x.rank axis = some a) (hdim : n ≤ x.extent a)
    (exclusive reverse : Bool) : (cumsum exclusive reverse).onMesh n (.sharded a) axis x ≠
      .ok (replicate n (x.onLines (cumsum exclusive reverse).size (cumsum exclusive reverse).run a)) := by
  intro heq
  have ha := axisIndex_lt haxis
  rw [onMesh_reduced_axis (by omega) (by omega) haxis, allreduceSum] at heq
  obtain ⟨m, rfl⟩ : ∃ m, n = m + 1 := ⟨n - 1, by omega⟩
  have hfst : 0 < m + 1 := by omega
  cases hadd : addAll ((range (m + 1)).map fun c => (chunk x a (m + 1) c).onLines
      (cumsum exclusive reverse).size (cumsum exclusive reverse).run a) with
  | error e => simp [hadd, Except.map] at heq
  | ok r =>
    rw [hadd] at heq
    have hwhole := replicate_right_injective (succ_ne_zero m) (by simpa [Except.map] using heq)
    rw [range_succ_eq_map, map_cons] at hadd
    have hshape := (congrArg (fun t => along t.shape a) hwhole).symm.trans
      (congrArg (fun s => along s a) (addAll_shape hadd))
    have hchunk : a < (chunk x a (m + 1) 0).shape.length := by
      rw [chunk_shape x a hfst, length_set]
      exact ha
    simp only [onLines, size] at hshape
    rw [along_set_self ha, along_set_self hchunk, extent_chunk x ha hfst, along_evenSplitSizes hfst] at hshape
    have hmod := div_add_mod (x.extent a) (m + 1)
    have hmul : 2 * (x.extent a / (m + 1)) ≤ (m + 1) * (x.extent a / (m + 1)) := mul_le_mul_right _ hn
    split at hshape
    · omega
    · omega

/-- Every device ends with the op of the whole tensor, whatever its entries, exactly if the reduced axis is not the
    one that is split, or one device has all of it, or the op is a sum (or a mean without entries). -/
theorem onMesh_iff (op : Reduction) (hpos : 0 < n) {shape : List ℕ} (haxis : axisIndex shape.length axis = some a)
    {p : Placement} (hp : p = .replicated ∨ ∃ d : ℕ, p = .sharded d ∧ d < shape.length ∧ n ≤ along shape d) :
    (∀ x : Tensor ℚ, x.shape = shape → ∃ y, op.graphOp x axis = .ok y ∧ op.onMesh n p axis x = .ok (replicate n y)) ↔
      (p = .sharded a → n = 1 ∨ op = sum ∨ op = mean ∧ ∃ b < shape.length, b ≠ a ∧ along shape b = 0) := by
  have hy : ∀ x : Tensor ℚ, x.shape = shape →
      ((∃ y, op.graphOp x axis = .ok y ∧ op.onMesh n p axis x = .ok (replicate n y)) ↔
        op.onMesh n p axis x = .ok (replicate n (x.onLines op.size op.run a))) := by
    rintro x rfl
    rw [graphOp_ok op haxis]
    exact ⟨fun ⟨y, hok, hmesh⟩ => ok.inj hok ▸ hmesh, fun hmesh => ⟨_, rfl, hmesh⟩⟩
  constructor
  · rintro hall rfl
    have hdim : n ≤ along shape a := by
      obtain hrep | ⟨d, hd, -, hdim⟩ := hp
      · cases hrep
      · obtain rfl : a = d := by simpa using hd
        exact hdim
    by_contra hnot
    simp only [not_or, not_and, not_exists] at hnot
    obtain ⟨hn, hsum, hmean⟩ := hnot
    have hones := (hy (ones shape) rfl).mp (hall _ rfl)
    cases op with
    | sum => exact hsum rfl
    | mean => exact onMesh_mean_ne hn haxis hdim hpos (hmean rfl) hones
    | cumsum exclusive reverse => exact onMesh_cumsum_ne (x := ones shape) (by omega) haxis hdim _ _ hones
  · rintro hcond x rfl
    refine (hy x rfl).mpr ?_
    rcases eq_or_ne n 1 with rfl | hn
    · rw [onMesh, if_pos rfl, graphOp_ok op haxis]
      rfl
    · obtain rfl | ⟨d, rfl, hd, -⟩ := hp
      · exact onMesh_replicated hn haxis
      · rcases eq_or_ne d a with rfl | hne
        · obtain h | rfl | ⟨rfl, b, hb, hne, hzero⟩ := hcond rfl
          · exact absurd h hn
          · exact onMesh_sum hn hpos haxis
          · -- No index is inside, so any two tensors of the shape agree.
            obtain ⟨r, hok, hr, -⟩ := @exists_reduced mean n d axis x hn hpos haxis fun _ => rfl
            have hempty : ∀ i, ¬ Inside i (x.shape.set d 1) := by
              intro i hi
              have hlt := hi.along_lt (by rwa [length_set])
              rw [along_set_ne hne.symm, hzero] at hlt
              omega
            have hwhole : r = x.onLines mean.size mean.run d :=
              ext_read hr fun i hi => absurd (hr ▸ hi) (hempty i)
            rw [hok, hwhole]
        · exact onMesh_other_axis hn hpos haxis hd hne

/-- The sum of a (2, 3) tensor over its split axis. -/
theorem onMesh_iff_rows : ∃ y, sum.graphOp ⟨[2, 3], fun i _ => along i 1⟩ 1 = .ok y ∧
      sum.onMesh 2 (.sharded 1) 1 ⟨[2, 3], fun i _ => along i 1⟩ = .ok (replicate 2 y) :=
  (onMesh_iff sum (by decide) (a := 1) (by decide) (.inr ⟨1, rfl, by decide, by decide⟩)).mpr
    (fun _ => .inr (.inl rfl)) _ rfl

/-- The mean of 0 and 4, one on each of two devices, becomes their sum. -/
theorem onMesh_mean_two : (mean.graphOp ⟨[2], fun i _ => 4 * along i 0⟩ 0).map (·.read [0]) = .ok 2 ∧
      (mean.onMesh 2 (.sharded 0) 0 ⟨[2], fun i _ => 4 * along i 0⟩).map (·.map (·.read [0])) = .ok [4, 4] := by
  decide +kernel

end Reduction

end MojoProse.Sharding
