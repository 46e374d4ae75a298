import MojoProse.KvCache.JengaTree

/-! What the loops over the leaves do to the rows of one request: each row changes as its group says,
    and the references of all of them together are traded with the pool. -/

namespace MojoProse.KvCache.KVTree
open Schemes KVGroup
variable {C H R : Type} [DecidableEq C] [DecidableEq H] {cfg : ManagerConfig C H} {s : TreeState C H}

variable {P : JengaBlockPool C H → Prop} {E : KvError C R → Prop} {m : C → RowEff C H R Unit} {Q : C → List ℕ → Prop}

omit [DecidableEq H] in
theorem forLeaves_ends (hand : C → List ℕ) (hi : P s.pool) (hc : refsOfRows s.rows + refsOfRows hand ≤ live s.pool)
    (hm : ∀ c p, P p → refsOf c (s.rows c) + refsOf c (hand c) ≤ live p → Ends (m c ⟨p, s.rows c⟩)
        (fun _ s' => P s'.pool ∧ Q c s'.row ∧
          Trades (live p) (refsOf c (s.rows c) + refsOf c (hand c)) (live s'.pool) (refsOf c s'.row))
        (fun e _ => E e)) : Ends (forLeaves cfg m s) (fun _ s' => P s'.pool ∧ (∀ c, Q c (s'.rows c)) ∧
        Trades (live s.pool) (refsOfRows s.rows + refsOfRows hand) (live s'.pool) (refsOfRows s'.rows))
      (fun e _ => E e) := by
  refine (Ends.forM (I := fun rest s' => Passing Q s.rows rest s'.rows ∧ P s'.pool ∧
      Trades (live s.pool) (refsOfRows s.rows + refsOfRows hand) (live s'.pool)
        (refsOfRows s'.rows + refsOfLeaves hand rest)) ?_ _ s ?_).imp ?_
  · rintro c rest ⟨p1, rows1⟩ ⟨hpass, hi1, ht1⟩
    have hrow : rows1 c = s.rows c := hpass.todo c (by simp)
    rw [refsOfLeaves_cons] at ht1
    have hc1 : refsOf c (s.rows c) + refsOf c (hand c) ≤ live p1 := by
      refine le_trans ?_ (ht1.covered hc)
      rw [← hrow]
      exact add_le_add (refsOf_le_refsOfRows rows1 c) (by simp)
    have hm := hm c p1 hi1 hc1
    rw [← hrow] at hm
    refine Ends.zoom (hm.imp ?_)
    rintro _ ⟨p2, row⟩ ⟨hi2, hQ, ht2⟩
    refine ⟨hpass.next hQ, hi2, ht1.trans (ht2.exchange ?_)⟩
    rw [add_add_add_comm, refsOfRows_update]
    ac_rfl
  · refine ⟨passing_leaves .., hi, ?_⟩
    rw [refsOfLeaves_leaves]
    exact .refl _ _
  · rintro _ s' ⟨hpass, hi', ht⟩
    exact ⟨hi', fun c => hpass.done c (by simp), by simpa [refsOfLeaves] using ht⟩

omit [DecidableEq H] in
theorem forLeaves_ends_alone
    (hi : P s.pool) (hc : refsOfRows s.rows ≤ live s.pool) (hm : ∀ c p, P p → refsOf c (s.rows c) ≤ live p →
      Ends (m c ⟨p, s.rows c⟩) (fun _ s' => P s'.pool ∧ Q c s'.row ∧
          Trades (live p) (refsOf c (s.rows c)) (live s'.pool) (refsOf c s'.row)) (fun e _ => E e)) :
    Ends (forLeaves cfg m s) (fun _ s' => P s'.pool ∧ (∀ c, Q c (s'.rows c)) ∧
        Trades (live s.pool) (refsOfRows s.rows) (live s'.pool) (refsOfRows s'.rows)) (fun e _ => E e) := by
  simpa using forLeaves_ends (fun _ => []) hi (by simpa using hc)
    fun c p hi hc => by simpa using hm c p hi (by simpa using hc)

/-- The rows become what `Q` says of each, and the pool gets what they lose. -/
def Rewrites (cfg : ManagerConfig C H) (m : TreeEff C H R Unit) (s : TreeState C H) (Q : C → List ℕ → Prop) : Prop :=
  Ends (m s)
    (fun _ s' => s'.pool.Inv cfg.geometry ∧ (∀ c, Q c (s'.rows c)) ∧
      Trades (live s.pool) (refsOfRows s.rows) (live s'.pool) (refsOfRows s'.rows))
    KvError.Other

section
variable (hi : s.pool.Inv cfg.geometry)
include hi

theorem shrinkRows_ends {k : ℕ} (hc : refsOfRows s.rows ≤ live s.pool) :
    Rewrites (R := R) cfg (shrinkRows cfg k) s fun c row => row = (s.rows c).take k := by
  refine forLeaves_ends_alone (Q := fun c row => row = (s.rows c).take k) hi hc fun c p hi hc => ?_
  rcases Nat.lt_or_ge (s.rows c).length k with hlt | hge
  · simp only [shrinkToFit, bind_get, hlt, if_true]
    rfl
  · obtain ⟨p', hok, hi', ht⟩ := shrinkToFit_ok (s := ⟨p, s.rows c⟩) hi hc hge
    rw [hok]
    exact ⟨hi', rfl, ht⟩

theorem extendRows_ends {hit loaded : C → List ℕ}
    (hc : refsOfRows s.rows + (refsOfRows hit + refsOfRows loaded) ≤ live s.pool) :
    Ends ((extendRows cfg hit loaded : TreeEff C H R Unit) s) (fun _ s' => s'.pool.Inv cfg.geometry ∧
        (∀ c, s'.rows c = s.rows c ++ (keptOfHit cfg.blockSize (cfg.group c) (hit c) (loaded c) ++ loaded c)) ∧
        Trades (live s.pool) (refsOfRows s.rows + (refsOfRows hit + refsOfRows loaded))
          (live s'.pool) (refsOfRows s'.rows)) KvError.Other := by
  have hhand : refsOfRows hit + refsOfRows loaded = refsOfRows fun c => hit c ++ loaded c := by
    funext k
    simp only [refsOfRows, Pi.add_apply, List.count_append]
    split_ifs <;> rfl
  rw [hhand] at hc ⊢
  refine forLeaves_ends _ (Q := fun c row => row = s.rows c ++
    (keptOfHit cfg.blockSize (cfg.group c) (hit c) (loaded c) ++ loaded c)) hi hc fun c p hi hc => ?_
  rw [refsOf_append] at hc ⊢
  have hchit : refsOf c (hit c) ≤ live p := by
    refine le_trans (fun k => ?_) hc
    simp only [Pi.add_apply]
    omega
  obtain ⟨p', hok, hi', ht⟩ := extend_ok (s := ⟨p, s.rows c⟩) cfg.blockSize (cfg.group c) (loaded c) hi hchit
  rw [hok]
  refine ⟨hi', rfl, ht.exchange ?_⟩
  simp only [refsOf_append]
  ac_rfl

theorem commitRows_ends {hashes : List H} {lastBlock : ℕ}
    (hc : refsOfRows s.rows ≤ live s.pool) (hlast : lastBlock ≤ hashes.length) :
    Rewrites (R := R) cfg (commitRows cfg hashes lastBlock) s fun c => SameNulls (s.rows c) :=
  forLeaves_ends_alone hi hc fun _ _ hi hc =>
    (commit_ok (stepKeeps_inv _) hi hc hlast).raises fun _ _ h => h.elim

end

/-- What `advance` makes of the row of one leaf. -/
def Advanced (pageSize : ℕ) (group : AttentionGroup) (k : ℕ) (row row' : List ℕ) : Prop :=
  match group.window pageSize with
  | none => row' = row
  | some w => ∃ j, j ≤ k - w ∧ k - w ≤ row.length ∧ Nulled j (k - w) row row' ∧
      (j = 0 ∨ row[j - 1]? = some 0)

variable (hi : s.pool.Inv cfg.geometry)
include hi

theorem advanceRows_ends {k : ℕ} (hc : refsOfRows s.rows ≤ live s.pool) :
    Rewrites (R := R) cfg (advanceRows cfg k) s fun c => Advanced cfg.blockSize (cfg.group c) k (s.rows c) := by
  refine forLeaves_ends_alone hi hc fun c p hi hc => ?_
  refine (advance_ends hi hc).mono ?_ ?_
  · rintro _ s' ⟨hi', ht, hrow⟩
    exact ⟨hi', hrow, ht⟩
  · rintro e s' rfl
    rfl

theorem releaseRows_ends (hc : refsOfRows s.rows ≤ live s.pool) :
    Rewrites (R := R) cfg (releaseRows cfg) s fun _ row => row = [] := by
  refine forLeaves_ends_alone (Q := fun _ row => row = []) hi hc fun c p hi hc => ?_
  obtain ⟨p', hok, hi', ht⟩ := release_ok (s := ⟨p, s.rows c⟩) hi hc
  rw [hok]
  exact ⟨hi', rfl, by simpa using ht⟩

/-- Rows grown by real blocks. When even the first block is wanting, nothing has happened. -/
theorem growRows_ends {n : ℕ} : Ends ((growRows cfg n : TreeEff C H R Unit) s) (fun _ s' => s'.pool.Inv cfg.geometry ∧
        (∀ c, ∃ new, s'.rows c = s.rows c ++ new ∧ new.length = n - (s.rows c).length ∧ ∀ b ∈ new, b ≠ 0) ∧
        Trades (live s.pool) (refsOfRows s.rows) (live s'.pool) (refsOfRows s'.rows))
      (fun e s' => (∃ c, e = .pool (.insufficientBlocks c)) ∧ s'.pool.Inv cfg.geometry ∧
        (∀ c, ∃ new, s'.rows c = s.rows c ++ new ∧ ∀ b ∈ new, b ≠ 0) ∧
        Trades (live s.pool) (refsOfRows s.rows) (live s'.pool) (refsOfRows s'.rows) ∧
        (s'.rows = s.rows → ∃ c, (s.rows c).length < n ∧ ∃ e, s.pool.allocBlock cfg.geometry c = .error e)) := by
  refine (Ends.forM (I := fun rest s' => Passing (fun c row => ∃ new, row = s.rows c ++ new ∧
        new.length = n - (s.rows c).length ∧ ∀ b ∈ new, b ≠ 0) s.rows rest s'.rows ∧ s'.pool.Inv cfg.geometry ∧
      Trades (live s.pool) (refsOfRows s.rows) (live s'.pool) (refsOfRows s'.rows) ∧
      (s'.rows = s.rows → s'.pool = s.pool)) ?_ _ s ⟨passing_leaves .., hi, .refl _ _, fun _ => rfl⟩).imp ?_
  · rintro c rest ⟨p1, rows1⟩ ⟨hpass, hi1, ht1, hidle⟩
    have hrow : rows1 c = s.rows c := hpass.todo c (by simp)
    have htrade : ∀ {new : List ℕ} {p2}, Drawn cfg.geometry c p1 new p2 →
        Trades (live s.pool) (refsOfRows s.rows) (live p2)
          (refsOfRows (Function.update rows1 c (rows1 c ++ new))) := by
      intro new p2 hd
      refine ht1.trans (hd.trade.exchange (add_right_cancel (b := refsOf c (rows1 c)) ?_))
      rw [add_zero, refsOfRows_update, refsOf_append]
      ac_rfl
    have hsame : ∀ {new : List ℕ} {p2}, Drawn cfg.geometry c p1 new p2 →
        Function.update rows1 c (rows1 c ++ new) = s.rows → p2 = s.pool := by
      intro new p2 hd h
      have hnew : new = [] := by simpa [hrow] using congrFun h c
      have hrows1 : rows1 = s.rows := by simpa [hnew] using h
      exact (hd.idle hnew).trans (hidle hrows1)
    refine Ends.zoom ?_
    simp only [grow, bind_get, numBlocksToAllocate]
    refine (appendBlocks_ends _ hi1).mono ?_ ?_
    · rintro _ ⟨p2, row⟩ ⟨new, hlen, rfl, hd⟩
      exact ⟨hpass.next ⟨new, by rw [hrow], by rw [hlen, hrow], hd.real⟩, hd.inv, htrade hd, hsame hd⟩
    · rintro e ⟨p2, row⟩ ⟨rfl, new, hlen, rfl, hd, herr⟩
      refine ⟨⟨c, rfl⟩, hd.inv, fun c' => ?_, htrade hd, fun h => ⟨c, ?_, ?_⟩⟩
      · rcases eq_or_ne c' c with rfl | hne
        · exact ⟨new, by simp [hrow], hd.real⟩
        by_cases hc' : c' ∈ rest
        · exact ⟨[], by simpa [hne] using hpass.todo c' (by simp [hc']), by simp⟩
        · obtain ⟨new', h1, -, h3⟩ := hpass.done c' (by simp [hne, hc'])
          exact ⟨new', by simpa [hne] using h1, h3⟩
      · rw [← hrow]
        omega
      · rwa [← hsame hd h]
  · rintro _ s' ⟨hpass, hi', ht, -⟩
    exact ⟨hi', fun c => hpass.done c (by simp), ht⟩

end MojoProse.KvCache.KVTree
