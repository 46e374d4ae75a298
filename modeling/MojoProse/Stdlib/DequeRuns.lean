import Mathlib.Data.Option.Basic
import MojoProse.Stdlib.DequeRefines

/-! Runs of a `Deque` and of the bounded list. -/

namespace MojoProse.Stdlib

open Schemes BoundedList Int Nat

variable {α : Type}

/-- What a deque shows of the list that it stands for, and its capacity. -/
structure Refines (d : Deque α) (l : List α) : Prop where
  contents : d.iterate = l.map some
  length : d.len = l.length
  power : ∃ k, d.capacity = 2 ^ k
  room : d.len ≤ d.capacity

theorem Represents.refines {bound : Option ℕ} {d : Deque α} {l : List α} (h : Represents bound d l) : Refines d l :=
  ⟨h.iterate_eq, h.len_eq, h.layout.power, h.len_eq.trans_le h.length_lt.le⟩

/-- The `Int` whose negation is itself. -/
def intMin : BitVec 64 := BitVec.intMin 64

theorem rotate_left_eq (k : ℕ) (l : List α) : l.rotate k = rotate (-k) l := by
  rw [rotate, neg_neg, ← natCast_emod, toNat_natCast, List.rotate_mod]

theorem rotate_right_eq (k : ℕ) (l : List α) : l.rotate (k * (l.length - 1)) = rotate k l := by
  rcases l with _ | ⟨a, l⟩
  · rw [rotate, List.rotate_nil, List.rotate_nil]
  · rw [rotate, ← List.rotate_mod, List.length_cons, Nat.add_sub_cancel]
    have hsum : ((k * l.length : ℕ) : ℤ) = -k + k * (l.length + 1 : ℕ) := by
      push_cast
      rw [mul_add, mul_one]
      omega
    have hmod : ((k * l.length % (l.length + 1) : ℕ) : ℤ) = -k % (l.length + 1 : ℕ) := by
      rw [natCast_emod, hsum, add_mul_emod_self_right]
    rw [← hmod, toNat_natCast]

namespace Represents

variable {bound : Option ℕ} {d : Deque α} {l : List α}

theorem rotate (h : Represents bound d l) {n : BitVec 64} (hn : n ≠ intMin) :
    Represents bound (d.rotate n) (rotate n.toInt l) := by
  rw [Deque.rotate]
  split_ifs with hneg
  · have hrotated := h.rotateLeft_iterate (-n).toInt.toNat
    rw [rotate_left_eq] at hrotated
    rw [BitVec.toInt_neg_of_ne_intMin hn] at hrotated ⊢
    rwa [toNat_of_nonneg (by omega), neg_neg] at hrotated
  · have hrotated := h.rotateRight_iterate n.toInt.toNat
    rwa [rotate_right_eq, toNat_of_nonneg (by omega)] at hrotated

/-- The `range` to the negation of `intMin` is empty. -/
theorem rotate_intMin (d : Deque α) : d.rotate intMin = d := by
  have hneg : intMin.toInt < 0 := by decide
  have hzero : (-intMin).toInt.toNat = 0 := by decide
  rw [Deque.rotate, if_pos hneg, hzero]
  rfl

end Represents

variable {op : DequeOp α}

section Step

variable [DecidableEq α] {bound : Option ℕ} {d : Deque α} {l : List α}

/-- Two results of an operation: both have ended the run, or the deque stands for the list and they show the same. -/
def Corresponds (bound : Option ℕ) : Option (Deque α × DequeOutcome α) → Option (List α × DequeOutcome α) → Prop :=
  Option.Rel fun p q => Represents bound p.1 q.1 ∧ p.2 = q.2

section

variable (h : Represents bound d l)
include h

theorem corresponds_insert (idx : ℤ) (v : α) :
    Corresponds bound (d.step (.insert idx v)) (step bound l (.insert idx v)) := by
  rw [Deque.step, step]
  split_ifs with hfull hidx
  · rw [Deque.insert, if_pos (h.insert_full_iff.mpr hfull)]
    exact .some ⟨h, rfl⟩
  · obtain ⟨k, rfl⟩ := eq_ofNat_of_zero_le hidx.1
    obtain ⟨d', hinsert, hnext⟩ := h.insert hfull (Int.ofNat_le.mp hidx.2) v
    rw [hinsert, toNat_natCast]
    exact .some ⟨hnext, rfl⟩
  · rw [Deque.insert, if_neg fun heq => hfull (h.insert_full_iff.mp heq), h.len_eq, if_pos (by omega)]
    exact .none

theorem corresponds_remove (v : α) : Corresponds bound (d.step (.remove v)) (step bound l (.remove v)) := by
  have hremove := h.remove v
  rw [Deque.step, step]
  split_ifs at hremove ⊢ with hmem
  · obtain ⟨d', hd', hnext⟩ := hremove
    rw [hd']
    exact .some ⟨hnext, rfl⟩
  · rw [hremove]
    exact .some ⟨h, rfl⟩

theorem corresponds_pop : Corresponds bound (d.step .pop) (step bound l .pop) := by
  have hpop := h.pop
  rw [Deque.step, step]
  rcases hlast : l.getLast? with _ | a
  · rw [hlast] at hpop
    rw [hpop]
    exact .some ⟨h, rfl⟩
  · rw [hlast] at hpop
    obtain ⟨d', hd', hnext⟩ := hpop
    rw [hd']
    exact .some ⟨hnext, rfl⟩

theorem corresponds_popleft : Corresponds bound (d.step .popleft) (step bound l .popleft) := by
  have hpop := h.popleft
  rw [Deque.step]
  rcases l with _ | ⟨a, l⟩
  · rw [hpop]
    exact .some ⟨h, rfl⟩
  · obtain ⟨d', hd', hnext⟩ := hpop
    rw [hd']
    exact .some ⟨hnext, rfl⟩

theorem corresponds_getitem (idx : ℤ) : Corresponds bound (d.step (.getitem idx)) (step bound l (.getitem idx)) := by
  rw [Deque.step, step, Deque.getitem, h.len_eq]
  split_ifs with hidx
  · obtain ⟨k, rfl⟩ := eq_ofNat_of_zero_le hidx.1
    rw [h.cell_eq (Int.ofNat_lt.mp hidx.2), toNat_natCast]
    exact .some ⟨h, rfl⟩
  · exact .none

/-- **One operation**, other than a rotation by the least `Int`. -/
theorem corresponds_step (hop : op ≠ .rotate intMin) : Corresponds bound (d.step op) (step bound l op) := by
  cases op with
  | append v => exact .some ⟨h.append v, rfl⟩
  | appendleft v => exact .some ⟨h.appendleft v, rfl⟩
  | extend values => exact .some ⟨h.extend values, rfl⟩
  | extendleft values => exact .some ⟨h.extendleft values, rfl⟩
  | insert idx v => exact corresponds_insert h idx v
  | remove v => exact corresponds_remove h v
  | pop => exact corresponds_pop h
  | popleft => exact corresponds_popleft h
  | clear => exact .some ⟨h.clear, rfl⟩
  | reverse => exact .some ⟨h.reverse, rfl⟩
  | rotate n => exact .some ⟨h.rotate fun hn => hop (by rw [hn]), rfl⟩
  | getitem idx => exact corresponds_getitem h idx
  | iterate => exact .some ⟨h, congrArg _ h.iterate_eq⟩
  | iterateReversed => exact .some ⟨h, congrArg _ h.iterateReversed_eq⟩

end

end Step

/-- Two runs show the same, and the deque refines the list at their end. -/
def Agrees (run : List (DequeOutcome α) × Option (Deque α)) (run' : List (DequeOutcome α) × Option (List α)) : Prop :=
  run.1 = run'.1 ∧ Option.Rel Refines run.2 run'.2

theorem runOps_cons_none {σ : Type} {step : σ → DequeOp α → Option (σ × DequeOutcome α)} {s : σ}
    (hstep : step s op = none) (ops : List (DequeOp α)) : runOps step s (op :: ops) = ([], none) := by
  rw [runOps, hstep]

variable {outcome : DequeOutcome α} {l' : List α}

theorem runOps_cons_some {σ : Type} {step : σ → DequeOp α → Option (σ × DequeOutcome α)} {s s' : σ}
    (hstep : step s op = some (s', outcome)) (ops : List (DequeOp α)) :
    runOps step s (op :: ops) = (outcome :: (runOps step s' ops).1, (runOps step s' ops).2) := by
  rw [runOps, hstep]

theorem Refines.unique {d : Deque α} {l : List α} (h : Refines d l) (h' : Refines d l') : l = l' :=
  List.map_injective_iff.mpr (Option.some_injective α) (h.contents.symm.trans h'.contents)

section Run

variable [DecidableEq α] {bound : Option ℕ} {d : Deque α} {l : List α}

/-- A rotation by the least `Int` changes the list: at no place of a run. -/
def Harmless (bound : Option ℕ) (l : List α) (ops : List (DequeOp α)) : Prop :=
  ∀ (k : ℕ) (l' : List α), ops[k]? = some (.rotate intMin) →
    (runOps (step bound) l (ops.take k)).2 = some l' → rotate (-2 ^ 63) l' = l'

theorem agrees_cons (h : Represents bound d l) {d' : Deque α}
    (hstep : d.step op = some (d', outcome)) (hstep' : step bound l op = some (l', outcome)) (ops : List (DequeOp α)) :
    (∀ k, Agrees (runOps Deque.step d ((op :: ops).take k)) (runOps (step bound) l ((op :: ops).take k))) ↔
      ∀ k, Agrees (runOps Deque.step d' (ops.take k)) (runOps (step bound) l' (ops.take k)) := by
  constructor
  · intro hruns k
    obtain ⟨houts, hstates⟩ := hruns (k + 1)
    rw [List.take_succ_cons, runOps_cons_some hstep, runOps_cons_some hstep'] at houts hstates
    exact ⟨(List.cons.inj houts).2, hstates⟩
  · rintro hruns (_ | k)
    · exact ⟨rfl, .some h.refines⟩
    · obtain ⟨houts, hstates⟩ := hruns k
      rw [List.take_succ_cons, runOps_cons_some hstep, runOps_cons_some hstep']
      exact ⟨congrArg _ houts, hstates⟩

theorem harmless_cons (hstep : step bound l op = some (l', outcome)) (ops : List (DequeOp α)) :
    Harmless bound l (op :: ops) ↔ (op = .rotate intMin → rotate (-2 ^ 63) l = l) ∧ Harmless bound l' ops := by
  constructor
  · intro h
    refine ⟨fun hop => h 0 l (by rw [hop]; rfl) rfl, fun k l'' hop hrun => h (k + 1) l'' hop ?_⟩
    rw [List.take_succ_cons, runOps_cons_some hstep]
    exact hrun
  · rintro ⟨hfst, hrest⟩ (_ | k) l'' hop hrun
    · obtain rfl : l = l'' := Option.some.inj hrun
      exact hfst (Option.some.inj hop)
    · rw [List.take_succ_cons, runOps_cons_some hstep] at hrun
      exact hrest k l'' hop hrun

/-- **Every run**, step by step. -/
theorem agrees_iff_harmless (h : Represents bound d l) (ops : List (DequeOp α)) :
    (∀ k, Agrees (runOps Deque.step d (ops.take k)) (runOps (step bound) l (ops.take k))) ↔ Harmless bound l ops := by
  induction ops generalizing d l with
  | nil =>
    refine iff_of_true (fun k => ?_) fun k l' hop => ?_
    · rw [List.take_nil]
      exact ⟨rfl, .some h.refines⟩
    · cases hop
  | cons op ops ih =>
    rcases Classical.em (op = .rotate intMin) with rfl | hop
    · -- The deque stays as it is; the list is rotated by 2 ^ 63.
      have hstep : d.step (.rotate intMin) = some (d, .done) := by rw [Deque.step, Represents.rotate_intMin]
      have hint : intMin.toInt = -2 ^ 63 := by decide
      have hstep' : step bound l (.rotate intMin) = some (rotate (-2 ^ 63) l, .done) := by
        rw [step, hint]
      rw [agrees_cons h hstep hstep', harmless_cons hstep']
      constructor
      · intro hruns
        have hsame : rotate (-2 ^ 63) l = l := by
          rcases (hruns 0).2 with hrefines | _
          exact (h.refines.unique hrefines).symm
        rw [hsame] at hruns ⊢
        exact ⟨fun _ => rfl, (ih h).mp hruns⟩
      · rintro ⟨hfst, hrest⟩
        rw [hfst rfl] at hrest ⊢
        exact (ih h).mpr hrest
    · rcases hstep : d.step op with _ | ⟨d', outcome⟩ <;>
        rcases hstep' : step bound l op with _ | ⟨l', outcome'⟩ <;>
          have hcorr := corresponds_step h hop <;> rw [hstep, hstep'] at hcorr
      · refine iff_of_true ?_ ?_
        · rintro (_ | k)
          · exact ⟨rfl, .some h.refines⟩
          · rw [List.take_succ_cons, runOps_cons_none hstep, runOps_cons_none hstep']
            exact ⟨rfl, .none⟩
        · rintro (_ | k) l' hk hrun
          · exact absurd (Option.some.inj hk) hop
          · rw [List.take_succ_cons, runOps_cons_none hstep'] at hrun
            cases hrun
      · cases hcorr
      · cases hcorr
      · obtain ⟨hnext, rfl⟩ : Represents bound d' l' ∧ outcome = outcome' := by
          cases hcorr
          assumption
        rw [agrees_cons h hstep hstep', harmless_cons hstep']
        exact (ih hnext).trans ⟨fun h => ⟨fun h => absurd h hop, h⟩, fun h => h.2⟩

end Run

theorem capacityOf_power (capacity : ℤ) : ∃ k, Deque.capacityOf capacity = 2 ^ k := by
  rw [Deque.capacityOf]
  split_ifs
  · exact ⟨6, rfl⟩
  · exact (nextPowerOfTwo_spec _).1

def initialList (maxlen : ℤ) (elements : Option (List α)) : List α :=
  keepRight (boundOf maxlen) (elements.getD [])

theorem min_power {a b : ℕ} (ha : ∃ k, a = 2 ^ k) (hb : ∃ k, b = 2 ^ k) : ∃ k, min a b = 2 ^ k := by
  rcases le_total a b with hle | hle
  · rw [min_eq_left hle]
    exact ha
  · rw [min_eq_right hle]
    exact hb

theorem represents_init (elements : Option (List α)) (capacity minCapacity maxlen : ℤ) (shrink : Bool) :
    Represents (boundOf maxlen) (Deque.init elements capacity minCapacity maxlen shrink) (initialList maxlen elements) := by
  have hempty : Represents (boundOf maxlen) (Deque.init (none : Option (List α)) capacity minCapacity maxlen shrink) [] := by
    have hpower : ∃ k, (Deque.init (none : Option (List α)) capacity minCapacity maxlen shrink).capacity = 2 ^ k := by
      rw [Deque.init]
      by_cases hmax : maxlen ≤ 0
      · rw [if_pos hmax]
        exact capacityOf_power capacity
      · obtain ⟨m, rfl⟩ := eq_ofNat_of_zero_le (by omega : 0 ≤ maxlen)
        simp only [if_neg hmax, toNat_natCast, Nat.cast_inj]
        exact min_power (capacityOf_power capacity) (roomy_spec m).1
    refine ⟨.empty hpower rfl rfl, pos_of_power hpower, capacityOf_power minCapacity, ?_, fun m _ => Nat.zero_le m⟩
    simp only [Deque.init, boundOf]
    split_ifs with hmax
    · exact .inl ⟨rfl, rfl⟩
    · exact .inr ⟨maxlen.toNat, by omega, rfl, by omega⟩
  rcases elements with _ | elements
  · have hkeep : initialList maxlen (none : Option (List α)) = [] := keepRight_of_fits fun m _ => zero_le m
    rw [hkeep]
    exact hempty
  · exact hempty.extend elements

end MojoProse.Stdlib
