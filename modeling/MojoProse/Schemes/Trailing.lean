import Mathlib.Data.List.Basic
import Mathlib.Data.List.Induction

/-! What a list ends with: a start with what continues it, and runs. A scan that reads a list from left to right
    can follow these, since each is known for `l ++ [x]` from `x` and `l`. -/

namespace MojoProse.Schemes

open List

variable {α : Type}

/-- The list ends with a start and elements that continue it. -/
def Trailing (start continues : α → Prop) (l : List α) : Prop :=
  ∃ front a middle, l = front ++ a :: middle ∧ start a ∧ ∀ m ∈ middle, continues m

/-- The list ends with a start and elements that continue it, one of them marked. -/
def TrailingWith (start continues mark : α → Prop) (l : List α) : Prop :=
  ∃ front a middle, l = front ++ a :: middle ∧ start a ∧ (∀ m ∈ middle, continues m) ∧ ∃ m ∈ middle, mark m

/-- The longest run of `p` at the end of the list is odd. -/
def OddRun (p : α → Prop) (l : List α) : Prop :=
  ∃ front run, l = front ++ run ∧ (∀ b ∈ front.getLast?, ¬p b) ∧ (∀ r ∈ run, p r) ∧ run.length % 2 = 1

section Trailing

variable {start continues mark : α → Prop} {l : List α} {x : α}

theorem not_trailing_nil : ¬Trailing start continues ([] : List α) := by
  rintro ⟨front, a, middle, h, -⟩
  simp at h

theorem not_trailingWith_nil : ¬TrailingWith start continues mark ([] : List α) := by
  rintro ⟨front, a, middle, h, -⟩
  simp at h

theorem TrailingWith.trailing (h : TrailingWith start continues mark l) : Trailing start continues l := by
  obtain ⟨front, a, middle, heq, ha, hmid, -⟩ := h
  exact ⟨front, a, middle, heq, ha, hmid⟩

theorem trailing_concat : Trailing start continues (l ++ [x]) ↔ start x ∨ (continues x ∧ Trailing start continues l) := by
  constructor
  · rintro ⟨front, a, middle, heq, ha, hmid⟩
    rcases eq_nil_or_concat' middle with rfl | ⟨middle, m, rfl⟩
    · obtain ⟨-, rfl⟩ := append_singleton_inj.mp heq
      exact .inl ha
    · rw [← cons_append, ← append_assoc] at heq
      obtain ⟨rfl, rfl⟩ := append_singleton_inj.mp heq
      rw [forall_mem_append] at hmid
      exact .inr ⟨hmid.2 x (mem_singleton_self x), front, a, middle, rfl, ha, hmid.1⟩
  · rintro (hx | ⟨hx, front, a, middle, rfl, ha, hmid⟩)
    · exact ⟨l, x, [], rfl, hx, by simp⟩
    · refine ⟨front, a, middle ++ [x], by simp, ha, forall_mem_append.mpr ⟨hmid, ?_⟩⟩
      simpa using hx

theorem trailingWith_concat : TrailingWith start continues mark (l ++ [x]) ↔
    continues x ∧ ((mark x ∧ Trailing start continues l) ∨ TrailingWith start continues mark l) := by
  constructor
  · rintro ⟨front, a, middle, heq, ha, hmid, m, hm, hmark⟩
    rcases eq_nil_or_concat' middle with rfl | ⟨middle, y, rfl⟩
    · cases hm
    · rw [← cons_append, ← append_assoc] at heq
      obtain ⟨rfl, rfl⟩ := append_singleton_inj.mp heq
      rw [forall_mem_append] at hmid
      refine ⟨hmid.2 x (mem_singleton_self x), ?_⟩
      rcases mem_append.mp hm with hm | hm
      · exact .inr ⟨front, a, middle, rfl, ha, hmid.1, m, hm, hmark⟩
      · obtain rfl := mem_singleton.mp hm
        exact .inl ⟨hmark, front, a, middle, rfl, ha, hmid.1⟩
  · rintro ⟨hx, ⟨hmark, front, a, middle, rfl, ha, hmid⟩ | ⟨front, a, middle, rfl, ha, hmid, m, hm, hmark⟩⟩
    · exact ⟨front, a, middle ++ [x], by simp, ha, forall_mem_append.mpr ⟨hmid, by simpa using hx⟩, x, by simp, hmark⟩
    · exact ⟨front, a, middle ++ [x], by simp, ha, forall_mem_append.mpr ⟨hmid, by simpa using hx⟩, m, by simp [hm],
        hmark⟩

/-- Where no start continues another one, a list ends in one way only. -/
theorem Trailing.middle {strict : α → Prop} {front middle : List α} {a : α} (h : Trailing start strict (front ++ a :: middle))
    (hmid : ∀ m ∈ middle, continues m) (ha : start a) (hstrict : ∀ a, strict a → continues a)
    (hdisjoint : ∀ a, start a → ¬continues a) : ∀ m ∈ middle, strict m := by
  obtain ⟨front', a', middle', heq, ha', hmid'⟩ := h
  rcases append_eq_append_iff.mp heq with ⟨between, rfl, hcons⟩ | ⟨between, rfl, hcons⟩
  · rcases between with _ | ⟨b, between⟩
    · exact (cons.inj hcons).2 ▸ hmid'
    · obtain ⟨rfl, rfl⟩ := cons.inj hcons
      exact absurd (hmid a' (by simp)) (hdisjoint a' ha')
  · rcases between with _ | ⟨b, between⟩
    · exact (cons.inj hcons).2 ▸ hmid'
    · obtain ⟨rfl, rfl⟩ := cons.inj hcons
      exact absurd (hstrict a (hmid' a (by simp))) (hdisjoint a ha)

end Trailing

section OddRun

variable {p : α → Prop}

theorem exists_run (l : List α) : ∃ front run, l = front ++ run ∧ (∀ b ∈ front.getLast?, ¬p b) ∧ ∀ r ∈ run, p r := by
  induction l using reverseRecOn with
  | nil => exact ⟨[], [], rfl, by simp, by simp⟩
  | append_singleton l x ih =>
    by_cases hx : p x
    · obtain ⟨front, run, rfl, hfront, hrun⟩ := ih
      refine ⟨front, run ++ [x], by simp, hfront, forall_mem_append.mpr ⟨hrun, by simpa using hx⟩⟩
    · exact ⟨l ++ [x], [], by simp, by simpa using hx, by simp⟩

theorem run_unique : ∀ {front front' run run' : List α}, front ++ run = front' ++ run' → (∀ b ∈ front.getLast?, ¬p b) →
    (∀ b ∈ front'.getLast?, ¬p b) → (∀ r ∈ run, p r) → (∀ r ∈ run', p r) → run = run' := by
  have hhalf : ∀ {front between run : List α}, (∀ b ∈ (front ++ between).getLast?, ¬p b) →
      (∀ r ∈ between ++ run, p r) → between = [] := by
    intro front between run hlast hrun
    rcases eq_nil_or_concat' between with rfl | ⟨between, b, rfl⟩
    · rfl
    · exact absurd (hrun b (by simp)) (hlast b (by simp))
  intro front front' run run' heq hfront hfront' hrun hrun'
  rcases append_eq_append_iff.mp heq with ⟨between, rfl, rfl⟩ | ⟨between, rfl, rfl⟩
  · rw [hhalf hfront' hrun, nil_append]
  · rw [hhalf hfront hrun', nil_append]

theorem not_oddRun_nil : ¬OddRun p [] := by
  rintro ⟨front, run, heq, -, -, hodd⟩
  obtain ⟨-, rfl⟩ := append_eq_nil_iff.mp heq.symm
  cases hodd

theorem oddRun_concat {l : List α} {x : α} : OddRun p (l ++ [x]) ↔ p x ∧ ¬OddRun p l := by
  constructor
  · rintro ⟨front, run, heq, hfront, hrun, hodd⟩
    rcases eq_nil_or_concat' run with rfl | ⟨run, y, rfl⟩
    · cases hodd
    rw [← append_assoc] at heq
    obtain ⟨rfl, rfl⟩ := append_singleton_inj.mp heq
    rw [forall_mem_append] at hrun
    refine ⟨hrun.2 x (mem_singleton_self x), ?_⟩
    rintro ⟨front', run', heq', hfront', hrun', hodd'⟩
    rw [run_unique heq' hfront hfront' hrun.1 hrun', length_append, length_singleton] at hodd
    omega
  · rintro ⟨hx, hnot⟩
    obtain ⟨front, run, rfl, hfront, hrun⟩ := @exists_run α p l
    refine ⟨front, run ++ [x], by simp, hfront, forall_mem_append.mpr ⟨hrun, by simpa using hx⟩, ?_⟩
    have heven : ¬run.length % 2 = 1 := fun hodd => hnot ⟨front, run, rfl, hfront, hrun, hodd⟩
    rw [length_append, length_singleton]
    omega

end OddRun

end MojoProse.Schemes
