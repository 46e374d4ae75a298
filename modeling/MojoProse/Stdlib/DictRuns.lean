import MojoProse.Stdlib.DictRefines

/-! Runs of operations on dictionaries, with any hash function, and the same runs on association lists. -/

namespace MojoProse.Stdlib.Dict

open Schemes SwissTable Function

variable {K V : Type} [BEq K] [Hashable K]

/-- Before the operation every table fits, and within an `update` before each of its insertions. -/
def StepFits (dicts : ℕ → Dict K V) (op : DictOp K V) : Prop :=
  (∀ i, (dicts i).Fits) ∧
    match op with
    | .update i other _ => ∀ entries, (dicts other).items = .ok entries → ∀ k < entries.length, ∀ d,
        (entries.take k).foldlM insertEntry (dicts i) = .ok d → d.Fits
    | _ => True

def RunFits (dicts : ℕ → Dict K V) : List (DictOp K V) → Prop
  | [] => True
  | op :: ops => StepFits dicts op ∧ ∀ dicts' outcome, step dicts op = .ok (dicts', outcome) → RunFits dicts' ops

section Lawful

variable {dicts : ℕ → Dict K V} {maps : ℕ → List (K × V)}

section
variable (h : ∀ i, Represents (dicts i) (maps i))
include h

theorem represents_update (i : ℕ) {d : Dict K V} {l : List (K × V)}
    (hd : Represents d l) (j : ℕ) : Represents (Function.update dicts i d j) (Function.update maps i l j) := by
  rcases eq_or_ne j i with rfl | hne
  · rw [update_self, update_self]
    exact hd
  · rw [update_of_ne hne, update_of_ne hne]
    exact h j

theorem represents_update_self {i : ℕ} {d : Dict K V} (hd : Represents d (maps i)) (j : ℕ) :
    Represents (Function.update dicts i d j) (maps j) := by
  have hupd := represents_update h i hd j
  rwa [update_eq_self] at hupd

/-- **One operation** ends, returns what it returns on the lists, and the dictionaries stand for the new lists. -/
theorem step_refines [EquivBEq K] [LawfulHashable K] {op : DictOp K V}
    (hfits : StepFits dicts op) : ∃ dicts', step dicts op = .ok (dicts', (OrderedMap.step maps op).2) ∧
      ∀ i, Represents (dicts' i) ((OrderedMap.step maps op).1 i) := by
  obtain ⟨hall, hupdate⟩ := hfits
  cases op with
  | insert i key value =>
    obtain ⟨d, displaced, hd, hpair, hfull⟩ := (h i).insert (hall i) key value
    refine ⟨Function.update dicts i d, ?_, represents_update h i (.inr hfull)⟩
    rw [step, hd, ok_bind]
    simp only [hpair]
    rfl
  | setitem i key value =>
    obtain ⟨d, hd, hfull⟩ := (h i).insertEntry (hall i) { hash := hash key, key, value } rfl
    refine ⟨Function.update dicts i d, ?_, represents_update h i (.inr hfull)⟩
    rw [step, setitem, hd]
    rfl
  | setdefault i key default =>
    obtain ⟨d, hd, hfull⟩ := (h i).setdefault (hall i) key default
    refine ⟨Function.update dicts i d, ?_, represents_update h i (.inr hfull)⟩
    rw [step, hd]
    rfl
  | find i key =>
    refine ⟨dicts, ?_, h⟩
    rw [step, (h i).find key]
    rfl
  | contains i key =>
    refine ⟨dicts, ?_, h⟩
    rw [step, (h i).contains key]
    rfl
  | pop i key =>
    obtain ⟨d, hd, hrep⟩ := (h i).popValue key
    rw [step, pop, hd]
    cases hfind : OrderedMap.find (maps i) key with
    | none =>
      rw [erase_of_find_none hfind] at hrep
      simp only [OrderedMap.step, hfind]
      exact ⟨_, rfl, represents_update_self h hrep⟩
    | some entry =>
      simp only [OrderedMap.step, hfind]
      exact ⟨_, rfl, represents_update h i hrep⟩
  | popDefault i key default =>
    obtain ⟨d, hd, hrep⟩ := (h i).popValue key
    refine ⟨Function.update dicts i d, ?_, represents_update h i hrep⟩
    rw [step, popDefault, hd]
    rfl
  | popitem i =>
    have hpop := (h i).popitem (hall i)
    cases hlast : (maps i).getLast? with
    | none =>
      rw [hlast] at hpop
      obtain ⟨d, hd, hrep⟩ := hpop
      simp only [step, hd, ok_bind, OrderedMap.step, hlast]
      exact ⟨_, rfl, represents_update_self h hrep⟩
    | some p =>
      rw [hlast] at hpop
      obtain ⟨d, entry, hd, rfl, hrep⟩ := hpop
      simp only [step, hd, ok_bind, OrderedMap.step, hlast]
      exact ⟨_, rfl, represents_update h i hrep⟩
  | update i other hne =>
    obtain ⟨entries, hitems, hpairs, hhash⟩ := (h other).items (hall other)
    obtain ⟨d, hd, hrep⟩ := (h i).insertEntries hhash (hupdate entries hitems)
    rw [hpairs] at hrep
    refine ⟨Function.update dicts i d, ?_, represents_update h i hrep⟩
    rw [step, Dict.update, hitems, ok_bind, hd]
    rfl
  | clear i => exact ⟨_, rfl, represents_update h i (h i).clear⟩
  | copy i source => exact ⟨_, rfl, represents_update h i (h source).copy⟩
  | len i =>
    refine ⟨dicts, ?_, h⟩
    rw [step, (h i).len]
    rfl
  | items i =>
    obtain ⟨entries, hitems, hpairs, -⟩ := (h i).items (hall i)
    refine ⟨dicts, ?_, h⟩
    rw [step, hitems, ok_bind, hpairs]
    rfl
  | reversed i =>
    obtain ⟨entries, hitems, hpairs⟩ := (h i).reversed (hall i)
    refine ⟨dicts, ?_, h⟩
    rw [step, hitems, ok_bind, hpairs]
    rfl

theorem run_represents [EquivBEq K] [LawfulHashable K] {ops : List (DictOp K V)} (hfits : RunFits dicts ops) :
    ∃ dicts', run dicts ops = .ok (dicts', (OrderedMap.run maps ops).2) ∧
      ∀ i, Represents (dicts' i) ((OrderedMap.run maps ops).1 i) := by
  induction ops generalizing dicts maps with
  | nil => exact ⟨dicts, rfl, h⟩
  | cons op ops ih =>
    obtain ⟨hstepFits, hrest⟩ := hfits
    obtain ⟨dicts1, hstep, h1⟩ := step_refines h hstepFits
    obtain ⟨dicts', hrun, h'⟩ := ih h1 (hrest dicts1 _ hstep)
    refine ⟨dicts', ?_, h'⟩
    rw [run, hstep, ok_bind]
    simp only
    rw [hrun, ok_bind]
    rfl

end

theorem start_represents (capacities : ℕ → Option ℤ) (i : ℕ) : Represents (start capacities i : Dict K V) [] := by
  unfold start
  split
  · exact .init
  · exact .initCapacity _

/-- **A run in which every table fits** comes to its end and returns what it returns on association lists. -/
theorem run_refines [EquivBEq K] [LawfulHashable K] (capacities : ℕ → Option ℤ) (ops : List (DictOp K V))
    (hfits : RunFits (start capacities) ops) :
    ∃ dicts, run (start capacities) ops = .ok (dicts, (OrderedMap.run (fun _ => []) ops).2) := by
  obtain ⟨dicts, hrun, -⟩ := run_represents (start_represents capacities) hfits
  exact ⟨dicts, hrun⟩

end Lawful

/-- An entry, and an iteration that sees it. -/
theorem run_refines_setitem : ∃ dicts : ℕ → Dict ℕ ℕ,
    run (start fun _ => none) [.setitem 0 7 70, .items 0] = .ok (dicts, [.nothing, .entries [(7, 70)]]) := by
  refine run_refines (fun _ => none) [.setitem 0 7 70, .items 0] ⟨⟨fun i => Nat.zero_le _, trivial⟩, ?_⟩
  intro dicts' outcome hstep
  obtain ⟨d, hd, hcap⟩ : ∃ d : Dict ℕ ℕ, init.setitem 7 70 = .ok d ∧ d.table.capacity = 16 := ⟨_, rfl, rfl⟩
  rw [step, show (start fun _ => none : ℕ → Dict ℕ ℕ) 0 = init from rfl, hd] at hstep
  cases hstep
  refine ⟨⟨?_, trivial⟩, fun _ _ _ => trivial⟩
  intro i
  rcases eq_or_ne i 0 with rfl | hne
  · rw [update_self, Fits, hcap]
    decide
  · rw [update_of_ne hne]
    exact Nat.zero_le _

/-- A table of `2 ^ 32` slots: the slot number `2 ^ 31` comes back as a negative one, and the iteration reads in front of
    the control bytes. -/
theorem run_out_of_bounds :
    run (start fun _ => some (2 ^ 31) : ℕ → Dict ℕ ℕ) [.setitem 0 (2 ^ 31) 0, .items 0] = .error .outOfBounds := by
  rfl

end MojoProse.Stdlib.Dict
