import Mathlib.Algebra.GroupWithZero.Nat
import Mathlib.Data.Tree.Basic

/-! A place in a binary tree, for code that walks a tree by parent pointers: the subtree at the place and, from its
    parent up to the root, the rest of the tree. -/

namespace MojoProse.Schemes

open BinaryTree Bool

inductive Side where
  | left
  | right
  deriving DecidableEq

def Side.other : Side → Side
  | .left => .right
  | .right => .left

/-- A node seen from one of its children: on which side the child is, and the other child. -/
structure Frame (α : Type) where
  side : Side
  value : α
  sibling : BinaryTree α

variable {α β : Type}

def inorder : BinaryTree α → List α
  | .nil => []
  | .node v l r => inorder l ++ v :: inorder r

def Frame.fill (f : Frame α) (t : BinaryTree α) : BinaryTree α :=
  match f.side with
  | .left => .node f.value t f.sibling
  | .right => .node f.value f.sibling t

/-- The whole tree around `t`. -/
def plug (t : BinaryTree α) : List (Frame α) → BinaryTree α
  | [] => t
  | f :: path => plug (f.fill t) path

/-- From a node to its child on one side. -/
def down (s : Side) : BinaryTree α → Option (BinaryTree α × Frame α)
  | .nil => none
  | .node v l r =>
    match s with
    | .left => some (l, ⟨.left, v, r⟩)
    | .right => some (r, ⟨.right, v, l⟩)

/-- A change of the value at the top. -/
def onTop (f : α → α) : BinaryTree α → BinaryTree α
  | .nil => .nil
  | .node v l r => .node (f v) l r

theorem length_inorder (t : BinaryTree α) : (inorder t).length = t.numNodes := by
  induction t with
  | nil => rfl
  | node v l r ihl ihr =>
    simp only [inorder, List.length_append, List.length_cons, ihl, ihr, numNodes]
    omega

theorem plug_append (t : BinaryTree α) (near far : List (Frame α)) : plug t (near ++ far) = plug (plug t near) far := by
  induction near generalizing t with
  | nil => rfl
  | cons f near ih => exact ih (f.fill t)

@[simp]
theorem Side.other_other (s : Side) : s.other.other = s := by cases s <;> rfl

theorem Side.eq_other {s t : Side} (h : s ≠ t) : s = t.other := by cases s <;> cases t <;> simp_all [Side.other]

@[simp]
theorem down_fill (s : Side) (v : α) (sibling t : BinaryTree α) :
    down s (Frame.fill ⟨s, v, sibling⟩ t) = some (t, ⟨s, v, sibling⟩) := by
  cases s <;> rfl

@[simp]
theorem down_fill_other (s : Side) (v : α) (sibling t : BinaryTree α) :
    down s (Frame.fill ⟨s.other, v, sibling⟩ t) = some (sibling, ⟨s, v, t⟩) := by
  cases s <;> rfl

theorem exists_fill (s : Side) (v : α) (l r : BinaryTree α) : ∃ near far, node v l r = Frame.fill ⟨s, v, near⟩ far := by
  cases s with
  | left => exact ⟨r, l, rfl⟩
  | right => exact ⟨l, r, rfl⟩

section Colours

variable (red : α → Bool)

def topRed : BinaryTree α → Bool
  | .nil => false
  | .node v _ _ => red v

/-- No red node has a red child, and every way down from the top passes the same number of black nodes. -/
inductive RedBlack : BinaryTree α → ℕ → Prop
  | nil : RedBlack .nil 0
  | red {v l r n} : red v = true → topRed red l = false → topRed red r = false →
      RedBlack l n → RedBlack r n → RedBlack (.node v l r) n
  | black {v l r n} : red v = false → RedBlack l n → RedBlack r n → RedBlack (.node v l r) (n + 1)

/-- The nearest node above is black. -/
def Beneath : List (Frame α) → Prop
  | [] => False
  | f :: _ => red f.value = false

/-- What is around a place is in order if a tree of black height `n` is put there; the top of the whole is black. -/
inductive Around : List (Frame α) → ℕ → Prop
  | root {n} : Around [] n
  | red {f path n} : red f.value = true → topRed red f.sibling = false → RedBlack red f.sibling n →
      Beneath red path → Around path n → Around (f :: path) n
  | black {f path n} : red f.value = false → RedBlack red f.sibling n → Around path (n + 1) →
      Around (f :: path) n

variable {red}

variable {t : BinaryTree α} {n : ℕ} {f : Frame α}

theorem RedBlack.fill_black (hf : red f.value = false)
    (hs : RedBlack red f.sibling n) (ht : RedBlack red t n) : RedBlack red (f.fill t) (n + 1) := by
  rcases f with ⟨side, value, sibling⟩
  cases side with
  | left => exact .black hf ht hs
  | right => exact .black hf hs ht

theorem RedBlack.fill_red (hf : red f.value = true)
    (hst : topRed red f.sibling = false) (htt : topRed red t = false) (hs : RedBlack red f.sibling n)
    (ht : RedBlack red t n) : RedBlack red (f.fill t) n := by
  rcases f with ⟨side, value, sibling⟩
  cases side with
  | left => exact .red hf htt hst ht hs
  | right => exact .red hf hst htt hs ht

theorem RedBlack.of_fill_red (hf : red f.value = true) (h : RedBlack red (f.fill t) n) :
    topRed red f.sibling = false ∧ topRed red t = false ∧ RedBlack red f.sibling n ∧ RedBlack red t n := by
  rcases f with ⟨side, value, sibling⟩
  cases side with
  | left =>
    cases h with
    | red _ hlt hrt hl hr => exact ⟨hrt, hlt, hr, hl⟩
    | black hv => exact absurd (hv.symm.trans hf) (by simp)
  | right =>
    cases h with
    | red _ hlt hrt hl hr => exact ⟨hlt, hrt, hl, hr⟩
    | black hv => exact absurd (hv.symm.trans hf) (by simp)

@[simp]
theorem topRed_fill (f : Frame α) (t : BinaryTree α) : topRed red (f.fill t) = red f.value := by
  rcases f with ⟨side, value, sibling⟩
  cases side <;> rfl

/-- A tree with a red top may stand beneath a black node; any other may stand anywhere. -/
theorem RedBlack.plug {path : List (Frame α)} (hp : Around red path n)
    (ht : RedBlack red t n) (htop : topRed red t = true → path = [] ∨ Beneath red path) :
    ∃ m, RedBlack red (plug t path) m := by
  induction hp generalizing t with
  | root => exact ⟨_, ht⟩
  | @red f path n hf hst hs hb _ ih =>
    have htt : topRed red t = false := by
      refine eq_false_iff.2 fun h => ?_
      rcases htop h with h | h
      · cases h
      · exact absurd (hf.symm.trans h) (by simp)
    exact ih (.fill_red hf hst htt hs ht) fun _ => .inr hb
  | @black f path n hf hs _ ih =>
    refine ih (.fill_black hf hs ht) fun h => ?_
    rw [topRed_fill, hf] at h
    cases h

theorem RedBlack.pow_le (h : RedBlack red t n) : 2 ^ n ≤ t.numNodes + 1 := by
  induction h with
  | nil => simp
  | red _ _ _ _ _ ihl ihr => simp only [numNodes]; omega
  | black _ _ _ ihl ihr => simp only [numNodes, Nat.pow_succ]; omega

theorem RedBlack.height_le (h : RedBlack red t n) : t.height ≤ 2 * n + (topRed red t).toNat := by
  induction h with
  | nil => simp
  | red hv hl hr _ _ ihl ihr =>
    rw [hl, toNat_false] at ihl
    rw [hr, toNat_false] at ihr
    simp only [height, topRed, hv, toNat_true]
    omega
  | @black v l r n hv _ _ ihl ihr =>
    have hle := toNat_le (topRed red l)
    have hre := toNat_le (topRed red r)
    simp only [height, topRed, hv, toNat_false]
    omega

end Colours

end MojoProse.Schemes
