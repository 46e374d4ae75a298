import Mathlib.Data.Nat.Notation
import MojoProse.Schemes.Effect

/-! `while` loops over a state. A loop has a number of turns after which it gives up; with a measure that every turn
    makes smaller, it ends before that. -/

namespace MojoProse.Schemes

open List

variable {ε σ β γ : Type}

/-- What a turn of a loop ends with: the loop variables for the next turn, or the way out. -/
inductive Turn (β γ : Type) where
  | again (vars : β)
  | done (result : γ)

/-- Turns from `vars` on, at most `turns` of them. -/
def loop (unfinished : ε) (turn : β → EStateM ε σ (Turn β γ)) : ℕ → β → EStateM ε σ γ
  | 0, _ => throw unfinished
  | turns + 1, vars => do
    match ← turn vars with
    | .again vars => loop unfinished turn turns vars
    | .done result => pure result

/-- After a turn the loop goes on with the invariant and a smaller measure, or it ends with `Q`. -/
def Advances (I : β → σ → Prop) (measure : β → σ → ℕ) (Q : γ → σ → Prop) (bound : ℕ) : Turn β γ → σ → Prop
  | .again vars, s => I vars s ∧ measure vars s < bound
  | .done result, s => Q result s

/-- The rule for a loop: an invariant, and a measure for which there are turns enough. -/
theorem Ends.loop (I : β → σ → Prop) (measure : β → σ → ℕ) {unfinished : ε}
    {turn : β → EStateM ε σ (Turn β γ)} {Q : γ → σ → Prop} {E : ε → σ → Prop}
    (hturn : ∀ vars s, I vars s → Ends (turn vars s) (Advances I measure Q (measure vars s)) E)
    {turns : ℕ} {vars : β} {s : σ} (hinv : I vars s) (hturns : measure vars s < turns) :
    Ends (loop unfinished turn turns vars s) Q E := by
  induction turns generalizing vars s with
  | zero => omega
  | succ turns ih =>
    rw [Schemes.loop]
    refine Ends.bind (hturn vars s hinv) ?_
    intro t s' ht
    cases t with
    | again vars' =>
      obtain ⟨hinv', hless⟩ := ht
      exact ih hinv' (by omega)
    | done result => exact ht

/-- The rule for a loop over a range: the invariant says how many turns are done. -/
theorem exists_foldlM_range {ε β : Type*} {f : β → ℕ → Except ε β} (I : ℕ → β → Prop) {n : ℕ}
    (hturn : ∀ i < n, ∀ b, I i b → ∃ b', f b i = .ok b' ∧ I (i + 1) b') {b : β} (hinv : I 0 b) :
    ∃ b', (range n).foldlM f b = .ok b' ∧ I n b' := by
  induction n with
  | zero => exact ⟨b, rfl, hinv⟩
  | succ n ih =>
    obtain ⟨b', hfold, hinv'⟩ := ih fun i hi => hturn i (by omega)
    obtain ⟨b'', hlast, hinv''⟩ := hturn n (by omega) b' hinv'
    refine ⟨b'', ?_, hinv''⟩
    rw [range_succ, foldlM_append, hfold]
    change foldlM f b' [n] = _
    rw [foldlM_cons, hlast]
    rfl

/-- A loop that appends what it makes of an element, if anything. -/
theorem foldlM_map_ok {α τ : Type} {f : List β → τ → Except ε (List β)} {e : α → τ} {g : α → Option β} {l : List α}
    (hturn : ∀ a ∈ l, ∀ acc, f acc (e a) = .ok (acc ++ (g a).toList)) (acc : List β) :
    (l.map e).foldlM f acc = .ok (acc ++ l.filterMap g) := by
  induction l generalizing acc with
  | nil => rw [filterMap_nil, append_nil]; rfl
  | cons a l ih =>
    rw [map_cons, foldlM_cons, hturn a mem_cons_self]
    have hrest := ih (fun a' ha' => hturn a' (mem_cons_of_mem _ ha')) (acc ++ (g a).toList)
    change (l.map e).foldlM f (acc ++ (g a).toList) = _
    rw [hrest, filterMap_cons]
    cases g a with
    | none => simp
    | some b => simp

end MojoProse.Schemes
