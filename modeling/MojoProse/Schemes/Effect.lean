import Mathlib.Logic.Basic

/-! Computations on a state that may raise, as `EStateM`: what a computation changed before it raised stays changed.
    `Ends` is the postcondition of a run, with its rule for each way to put computations together. -/

namespace MojoProse.Schemes
open EStateM (Result)

variable {ε σ τ α β : Type}

/-- Run a computation on a part of the state; the part is written back also when it raises. -/
def zoom (get : σ → τ) (set : σ → τ → σ) (m : EStateM ε τ α) : EStateM ε σ α := fun s =>
  match m (get s) with
  | .ok a t => .ok a (set s t)
  | .error e t => .error e (set s t)

/-- `except E: handler; raise`: the handler runs on what the computation left, then the exception goes on. -/
def onRaise (caught : ε → Bool) (x : EStateM ε σ α) (handler : EStateM ε σ Unit) : EStateM ε σ α :=
  fun s =>
    match x s with
    | .ok a s' => .ok a s'
    | .error e s' =>
      if caught e then
        match handler s' with
        | .ok _ s'' => .error e s''
        | .error e' s'' => .error e' s''
      else .error e s'

theorem bind_get (f : σ → EStateM ε σ α) (s : σ) : (get >>= f) s = f s s := rfl

theorem bind_set (t : σ) (f : PUnit → EStateM ε σ α) (s : σ) : (set t >>= f) s = f ⟨⟩ t := rfl

theorem bind_modify (h : σ → σ) (f : PUnit → EStateM ε σ α) (s : σ) : (modify h >>= f) s = f ⟨⟩ (h s) := rfl

variable {x : EStateM ε σ α} {f : α → EStateM ε σ β}

theorem bind_of_ok {s s' : σ} {a : α} (h : x s = .ok a s') : (x >>= f) s = f a s' := by
  simp [Bind.bind, EStateM.bind, h]

theorem bind_of_error {s s' : σ} {e : ε} (h : x s = .error e s') : (x >>= f) s = .error e s' := by
  simp [Bind.bind, EStateM.bind, h]

variable {s : σ}

theorem forM_idle {f : α → EStateM ε σ PUnit} : ∀ (l : List α), (∀ a ∈ l, f a s = .ok ⟨⟩ s) → (l.forM f) s = .ok ⟨⟩ s
  | [], _ => rfl
  | a :: l, h =>
      (bind_of_ok (f := fun _ => l.forM f) (h a (by simp))).trans (forM_idle l (List.forall_mem_cons.mp h).2)

theorem foldlM_idle {f : β → α → EStateM ε σ β} {b : β} :
    ∀ (l : List α), (∀ a ∈ l, f b a s = .ok b s) → (l.foldlM f b) s = .ok b s
  | [], _ => rfl
  | a :: l, h => by
    rw [List.foldlM_cons, bind_of_ok (h a (by simp))]
    exact foldlM_idle l (List.forall_mem_cons.mp h).2

variable {m : EStateM ε τ α} {set : σ → τ → σ}

theorem zoom_of_ok {get : σ → τ} {a : α} {t : τ} (h : m (get s) = .ok a t) : zoom get set m s = .ok a (set s t) := by
  simp [zoom, h]

theorem zoom_of_error {get : σ → τ} {e : ε} {t : τ}
    (h : m (get s) = .error e t) : zoom get set m s = .error e (set s t) := by
  simp [zoom, h]

/-- The run returns with `Q` or raises with `E`. -/
def Ends (r : Result ε σ α) (Q : α → σ → Prop) (E : ε → σ → Prop) : Prop :=
  match r with
  | .ok a s => Q a s
  | .error e s => E e s

/-- The same as a test, for runs that raise. -/
def raisesWith (r : Result ε σ α) (p : ε → σ → Bool) : Bool :=
  match r with
  | .ok _ _ => false
  | .error e s => p e s

variable {r : Result ε σ α}

theorem exists_of_raisesWith {p : ε → σ → Bool} (h : raisesWith r p = true) : ∃ e s, r = .error e s ∧ p e s = true := by
  cases r with
  | ok a s => cases h
  | error e s => exact ⟨e, s, rfl, h⟩

variable {Q Q' : α → σ → Prop} {E E' : ε → σ → Prop}

theorem Ends.mono (h : Ends r Q E) (hQ : ∀ a s, Q a s → Q' a s) (hE : ∀ e s, E e s → E' e s) : Ends r Q' E' := by
  cases r with
  | ok a s => exact hQ a s h
  | error e s => exact hE e s h

theorem Ends.imp (h : Ends r Q E) (hQ : ∀ a s, Q a s → Q' a s) : Ends r Q' E := h.mono hQ fun _ _ h => h

theorem Ends.raises (h : Ends r Q E) (hE : ∀ e s, E e s → E' e s) : Ends r Q E' := h.mono (fun _ _ h => h) hE

theorem Ends.ok (h : Ends r Q fun _ _ => False) : ∃ a s, r = .ok a s ∧ Q a s := by
  cases r with
  | ok a s => exact ⟨a, s, rfl, h⟩
  | error e s => exact h.elim

/-- Sequencing: the second computation starts where the first returned. -/
theorem Ends.bind {R : β → σ → Prop}
    (hx : Ends (x s) Q E) (hf : ∀ a s', Q a s' → Ends (f a s') R E) : Ends ((x >>= f) s) R E := by
  simp only [Bind.bind, EStateM.bind]
  cases h : x s with
  | ok a s' =>
    rw [h] at hx
    exact hf a s' hx
  | error e s' =>
    rw [h] at hx
    exact hx

/-- A loop over a list: `I rest` holds while the elements `rest` are still to come. -/
theorem Ends.forM {f : α → EStateM ε σ PUnit} {I : List α → σ → Prop}
    (hstep : ∀ a rest s, I (a :: rest) s → Ends (f a s) (fun _ s' => I rest s') E) :
    ∀ (l : List α) (s : σ), I l s → Ends ((l.forM f) s) (fun _ s' => I [] s') E
  | [], _, h => h
  | a :: l, s, h =>
      Ends.bind (x := f a) (f := fun _ => l.forM f) (hstep a l s h) fun _ s' h' =>
        Ends.forM hstep l s' h'

/-- A loop each turn of which acts on a view of the state as `g` does. -/
theorem Ends.forM_view {f : α → EStateM ε σ PUnit} {v : σ → τ} {g : τ → α → τ} {I : σ → Prop}
    (hstep : ∀ a s, I s → Ends (f a s) (fun _ s' => I s' ∧ v s' = g (v s) a) E) (l : List α) (hs : I s) :
    Ends ((l.forM f) s) (fun _ s' => I s' ∧ v s' = l.foldl g (v s)) E := by
  refine Ends.forM (I := fun rest s' => I s' ∧ rest.foldl g (v s') = l.foldl g (v s)) ?_ l s ⟨hs, rfl⟩
  rintro a rest s1 ⟨hI, hv⟩
  refine (hstep a s1 hI).imp fun _ s2 h => ⟨h.1, ?_⟩
  rw [h.2, ← hv, List.foldl_cons]

/-- A loop with an accumulator: `I acc rest` holds while `rest` is still to come. -/
theorem Ends.foldlM {f : β → α → EStateM ε σ β} {I : β → List α → σ → Prop}
    (hstep : ∀ b a rest s, I b (a :: rest) s → Ends (f b a s) (fun b' s' => I b' rest s') E) :
    ∀ (l : List α) (b : β) (s : σ), I b l s → Ends ((l.foldlM f b) s) (fun b' s' => I b' [] s') E
  | [], _, _, h => h
  | a :: l, b, s, h =>
      Ends.bind (x := f b a) (f := fun b' => l.foldlM f b') (hstep b a l s h) fun b' s' h' =>
        Ends.foldlM hstep l b' s' h'

/-- A loop that collects: `I done rest` holds when `done` is collected and `rest` is still to come. -/
theorem Ends.mapM {I : List β → List α → σ → Prop}
    (hstep : ∀ bs a rest s, I bs (a :: rest) s → Ends (f a s) (fun b s' => I (bs ++ [b]) rest s') E) :
    ∀ (l : List α) (bs : List β) (s : σ), I bs l s → Ends ((l.mapM f) s) (fun new s' => I (bs ++ new) [] s') E := by
  intro l
  induction l with
  | nil =>
    intro bs s h
    simpa [Ends, Pure.pure, EStateM.pure] using h
  | cons a l ih =>
    intro bs s h
    rw [List.mapM_cons]
    refine Ends.bind (hstep bs a l s h) fun b s' h' => ?_
    refine Ends.bind (ih (bs ++ [b]) s' h') fun new s'' h'' => ?_
    simpa [Ends, Pure.pure, EStateM.pure] using h''

/-- `try … finally`: the finalizer runs after a return and after a raise. -/
theorem Ends.cleanup {f : EStateM ε σ β}
    (hx : Ends (x s) Q E) (hok : ∀ a s', Q a s' → Ends (f s') (fun _ s'' => Q' a s'') E')
    (herr : ∀ e s', E e s' → Ends (f s') (fun _ s'' => E' e s'') E') :
    Ends ((tryFinally x f : EStateM ε σ α) s) Q' E' := by
  simp only [tryFinally, tryFinally', Functor.map, EStateM.map]
  cases hxs : x s with
  | ok a s' =>
    rw [hxs] at hx
    have h := hok a s' hx
    simp only
    cases hfs : f s' <;> rw [hfs] at h <;> exact h
  | error e s' =>
    rw [hxs] at hx
    have h := herr e s' hx
    simp only
    cases hfs : f s' <;> rw [hfs] at h <;> exact h

/-- The handler runs on the exceptions it catches, and they go on. -/
theorem Ends.onRaise {caught : ε → Bool} {handler : EStateM ε σ Unit} (hx : Ends (x s) Q E)
    (hcaught : ∀ e s', E e s' → caught e = true → Ends (handler s') (fun _ s'' => E' e s'') E')
    (hother : ∀ e s', E e s' → caught e = false → E' e s') : Ends (Schemes.onRaise caught x handler s) Q E' := by
  simp only [Schemes.onRaise]
  cases hxs : x s with
  | ok a s' =>
    rw [hxs] at hx
    exact hx
  | error e s' =>
    rw [hxs] at hx
    cases hc : caught e with
    | true =>
      have h := hcaught e s' hx hc
      simp only [hc, if_true]
      cases hh : handler s' <;> rw [hh] at h <;> exact h
    | false =>
      simp only [hc, Bool.false_eq_true, if_false]
      exact hother e s' hx hc

theorem Ends.zoom {get : σ → τ} (h : Ends (m (get s)) (fun a t => Q a (set s t)) (fun e t => E e (set s t))) :
    Ends (Schemes.zoom get set m s) Q E := by
  simp only [Schemes.zoom]
  cases hm : m (get s) with
  | ok a t | error e t =>
    rw [hm] at h
    exact h

/-- The computation raises nothing that `bad` names. -/
def Avoids (bad : ε → Bool) (m : EStateM ε σ α) : Prop :=
  ∀ s, Ends (m s) (fun _ _ => True) fun e _ => bad e = false

section
variable {bad : ε → Bool}

theorem Avoids.pure (a : α) : Avoids bad (pure a : EStateM ε σ α) := fun _ => trivial

theorem Avoids.get : Avoids bad (get : EStateM ε σ σ) := fun _ => trivial

theorem Avoids.modify (f : σ → σ) : Avoids bad (modify f : EStateM ε σ PUnit) := fun _ => trivial

theorem Avoids.throw {e : ε} (h : bad e = false) : Avoids bad (throw e : EStateM ε σ α) := fun _ => h

theorem Avoids.bind (hx : Avoids bad x) (hf : ∀ a, Avoids bad (f a)) : Avoids bad (x >>= f) :=
  fun s => (hx s).bind fun a s' _ => hf a s'

theorem Avoids.forM {f : α → EStateM ε σ PUnit} {l : List α} (h : ∀ a ∈ l, Avoids bad (f a)) :
    Avoids bad (l.forM f) := by
  intro s
  refine (Ends.forM (I := fun rest _ => ∀ a ∈ rest, Avoids bad (f a)) ?_ l s h).imp fun _ _ _ => trivial
  intro a rest s' hrest
  exact (hrest a (by simp) s').imp fun _ _ _ a' ha' => hrest a' (by simp [ha'])

theorem Avoids.zoom {get : σ → τ} (h : Avoids bad m) : Avoids bad (zoom get set m) :=
  fun s => (h (get s)).zoom

end

end MojoProse.Schemes
