import Mathlib.Data.List.Nodup
import Mathlib.Logic.Function.Basic

/-! Lists that are threaded through their own elements: each element has a link to the one after it. -/

namespace MojoProse.Schemes

open Function List

variable {α : Type} [DecidableEq α] {l l₁ l₂ : List α} {a : α} {first new? : Option α} {links : α → Option α}

def follow : List α → α → Option α
  | [], _ => none
  | b :: l, a => if a = b then l.head? else follow l a

/-- The link of an element is written, if there is such an element. -/
def link (links : α → Option α) (at? to? : Option α) : α → Option α :=
  match at? with
  | some a => update links a to?
  | none => links

/-- The links lead from the start through exactly this list. -/
def Walks (links : α → Option α) : Option α → List α → Prop
  | start, [] => start = none
  | start, a :: l => start = some a ∧ Walks links (links a) l

theorem follow_append (l₁ l₂ : List α) (a : α) :
    follow (l₁ ++ l₂) a = if a ∈ l₁ then (follow l₁ a).or l₂.head? else follow l₂ a := by
  induction l₁ with
  | nil => rfl
  | cons b l₁ ih =>
    rw [cons_append, follow, follow, ih, head?_append]
    rcases eq_or_ne a b with rfl | hne
    · simp
    · simp [hne]

theorem follow_of_notMem (h : a ∉ l) : follow l a = none := by
  rw [← append_nil l, follow_append, if_neg h, follow]

theorem walks_of_follow (hnd : l.Nodup) (h : ∀ a ∈ l, links a = follow l a) : Walks links l.head? l := by
  induction l with
  | nil => rfl
  | cons b l ih =>
    obtain ⟨hb, hnd⟩ := nodup_cons.1 hnd
    refine ⟨rfl, ?_⟩
    rw [h b mem_cons_self, follow, if_pos rfl]
    refine ih hnd ?_
    intro a ha
    rw [h a (mem_cons_of_mem b ha), follow, if_neg (ne_of_mem_of_not_mem ha hb)]

/-- A write at the last element of `l` changes where `l` leads to, and nothing else. -/
theorem link_last (hnd : l.Nodup) {to? : Option α} (h : ∀ a ∈ l, links a = (follow l a).or to?) (new? : Option α)
    (a : α) : link links l.reverse.head? new? a = if a ∈ l then (follow l a).or new? else links a := by
  rcases eq_nil_or_concat l with rfl | ⟨l, b, rfl⟩
  · rfl
  · have hb : b ∉ l := (nodup_concat ..).1 hnd |>.1
    rw [concat_eq_append] at h ⊢
    rw [reverse_append, reverse_singleton, singleton_append, head?_cons, link, update_apply]
    have hto := h a
    rw [follow_append] at hto ⊢
    rcases eq_or_ne a b with rfl | hne
    · simp [hb, follow]
    · by_cases ha : a ∈ l
      · simpa [ha, hne] using hto
      · simp [ha, hne]

/-- A list read from one end: where it starts, and the links of all elements. -/
structure Threaded (first : Option α) (links : α → Option α) (l : List α) : Prop where
  nodup : l.Nodup
  first : first = l.head?
  links : links = follow l

namespace Threaded

theorem walks (h : Threaded first links l) : Walks links first l := by
  rw [h.first, h.links]
  exact walks_of_follow h.nodup fun _ _ => rfl

theorem cons (h : Threaded first links l) (ha : a ∉ l) : Threaded (some a) (update links a first) (a :: l) := by
  refine ⟨nodup_cons.2 ⟨ha, h.nodup⟩, rfl, ?_⟩
  funext b
  rw [h.links, h.first, follow, update_apply]

theorem single (h : Threaded none links l) (a : α) : l = [] ∧ Threaded (some a) links [a] := by
  obtain rfl : l = [] := head?_eq_none_iff.1 h.first.symm
  refine ⟨rfl, nodup_singleton a, rfl, ?_⟩
  funext b
  simp [h.links, follow]

theorem concat (h : Threaded first links l) (ha : a ∉ l) :
    Threaded (first.or (some a)) (update (link links l.reverse.head? (some a)) a none) (l ++ [a]) := by
  refine ⟨nodup_middle.2 (by simpa using ⟨ha, h.nodup⟩), by rw [h.first, head?_append]; rfl, ?_⟩
  funext b
  rw [update_apply, h.links, link_last h.nodup (fun a _ => (Option.or_none ..).symm), follow_append]
  by_cases hb : b ∈ l
  · simp [hb, ne_of_mem_of_not_mem hb ha]
  · simp [hb, follow_of_notMem, follow]

/-- Leaving an element out takes one write, at the element before it. -/
theorem unlink (h : Threaded first links (l₁ ++ a :: l₂)) : links a = l₂.head? ∧
    link links l₁.reverse.head? l₂.head? a = l₂.head? ∧
    Threaded (if some a = first then l₂.head? else first) (update (link links l₁.reverse.head? l₂.head?) a none)
      (l₁ ++ l₂) := by
  obtain ⟨ha, hnd⟩ := nodup_cons.1 (nodup_middle.1 h.nodup)
  obtain ⟨ha₁, -⟩ := not_or.1 (mem_append.not.1 ha)
  have hlast : ∀ b ∈ l₁, links b = (follow l₁ b).or (some a) := by
    intro b hb
    rw [h.links, follow_append, if_pos hb]
    rfl
  have hwrite := link_last hnd.of_append_left hlast l₂.head?
  have hat : links a = l₂.head? := by rw [h.links, follow_append, if_neg ha₁, follow, if_pos rfl]
  refine ⟨hat, by rw [hwrite, if_neg ha₁, hat], hnd, ?_, ?_⟩
  · rw [h.first]
    cases l₁ with
    | nil => simp
    | cons b l₁ => simp [ne_of_not_mem_cons ha₁]
  · funext b
    rw [update_apply, hwrite, h.links]
    rcases eq_or_ne b a with rfl | hne
    · rw [if_pos rfl, follow_of_notMem ha]
    · rw [if_neg hne, follow_append, follow_append, follow, if_neg hne]
      split <;> rfl

end Threaded

end MojoProse.Schemes
