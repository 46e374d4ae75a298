import Mathlib.Data.List.Induction
import Mathlib.Data.List.MinMax
import Mathlib.Data.Nat.Log
import MojoProse.Stdlib.IntervalTree

/-! `insert` keeps every interval, in the order of their starts, and the tree a red-black tree. A `max_end` is always the
    end of an interval below the node, but `_right_rotate` may leave it too low. -/

namespace MojoProse.Stdlib

open Schemes IntervalNode Frame List Option

variable {T U : Type}

def IntervalNode.entry (n : IntervalNode T U) : Interval T × U := (n.interval, n.data)

def entries (t : BinaryTree (IntervalNode T U)) : List (Interval T × U) := (inorder t).map entry

@[simp] theorem entries_nil : entries (.nil : BinaryTree (IntervalNode T U)) = [] := rfl

@[simp]
theorem entries_node (n : IntervalNode T U) (l r : BinaryTree (IntervalNode T U)) :
    entries (.node n l r) = entries l ++ n.entry :: entries r := by
  simp [entries, inorder]

@[simp] theorem entry_paint (colour : Bool) (n : IntervalNode T U) : (n.paint colour).entry = n.entry := rfl

@[simp]
theorem entries_onTop_paint (colour : Bool) (t : BinaryTree (IntervalNode T U)) :
    entries (onTop (paint colour) t) = entries t := by
  cases t <;> simp [onTop]

def ends (t : BinaryTree (IntervalNode T U)) : List T := (entries t).map fun entry => entry.1.stop

theorem mem_ends_node {e : T} {n : IntervalNode T U} {l r : BinaryTree (IntervalNode T U)} :
    e ∈ ends (.node n l r) ↔ e = n.interval.stop ∨ e ∈ ends l ∨ e ∈ ends r := by
  simp only [ends, entries_node, map_append, map_cons, mem_append, mem_cons, entry]
  tauto

/-- The colours are those of a red-black tree. -/
abbrev Balanced (t : BinaryTree (IntervalNode T U)) (n : ℕ) : Prop := RedBlack isRed t n

variable {t t' : BinaryTree (IntervalNode T U)} {n : ℕ}

theorem Balanced.paint_black (h : Balanced t n) (hred : redNode t = true) :
    Balanced (onTop (paint false) t) (n + 1) := by
  cases h with
  | nil => cases hred
  | red _ _ _ hl hr => exact .black rfl hl hr
  | black hv => exact absurd (hv.symm.trans hred) (by simp)

variable [LinearOrder T]

namespace IntervalTree

/-- Where the new node comes to, if nothing is rebalanced. -/
def placed (newNode : IntervalNode T U) : BinaryTree (IntervalNode T U) → BinaryTree (IntervalNode T U)
  | .nil => .node newNode .nil .nil
  | .node n l r =>
    let n' := { n with maxEnd := max n.maxEnd newNode.interval.stop }
    if newNode.lt n then .node n' (placed newNode l) r else .node n' l (placed newNode r)

theorem plug_descend (newNode : IntervalNode T U) (t : BinaryTree (IntervalNode T U))
    (path : List (Frame (IntervalNode T U))) :
    plug (.node newNode .nil .nil) (descend newNode t path) = plug (placed newNode t) path := by
  induction t generalizing path with
  | nil => rfl
  | node n l r ihl ihr =>
    simp only [descend, placed]
    split
    · rw [ihl]
      rfl
    · rw [ihr]
      rfl

theorem placed_perm (newNode : IntervalNode T U) (t : BinaryTree (IntervalNode T U)) :
    (entries (placed newNode t)).Perm (newNode.entry :: entries t) := by
  induction t with
  | nil => simp [placed]
  | node n l r ihl ihr =>
    simp only [placed]
    split
    · rw [entries_node, entries_node]
      exact ihl.append_right _
    · rw [entries_node, entries_node]
      refine ((ihr.cons _).append_left _).trans ?_
      exact ((Perm.swap ..).append_left _).trans perm_middle

theorem mem_ends_placed {e : T} {newNode : IntervalNode T U} {t : BinaryTree (IntervalNode T U)} :
    e ∈ ends (placed newNode t) ↔ e = newNode.interval.stop ∨ e ∈ ends t :=
  ((placed_perm newNode t).map fun entry => entry.1.stop).mem_iff.trans mem_cons

def Sorted (t : BinaryTree (IntervalNode T U)) : Prop :=
  (entries t).Pairwise fun a b => a.1.start ≤ b.1.start

theorem sorted_node {n : IntervalNode T U} {l r : BinaryTree (IntervalNode T U)} :
    Sorted (.node n l r) ↔ Sorted l ∧ Sorted r ∧ (∀ a ∈ entries l, a.1.start ≤ n.interval.start) ∧
      ∀ b ∈ entries r, n.interval.start ≤ b.1.start := by
  simp only [Sorted, entries_node, pairwise_append, pairwise_cons]
  constructor
  · rintro ⟨hl, ⟨hnr, hr⟩, hlr⟩
    exact ⟨hl, hr, fun a ha => hlr a ha _ mem_cons_self, hnr⟩
  · rintro ⟨hl, hr, hln, hnr⟩
    refine ⟨hl, ⟨hnr, hr⟩, ?_⟩
    intro a ha b hb
    rcases mem_cons.1 hb with rfl | hb
    · exact hln a ha
    · exact le_trans (hln a ha) (hnr b hb)

theorem placed_sorted {newNode : IntervalNode T U} (h : Sorted t) : Sorted (placed newNode t) := by
  induction t with
  | nil => simp [placed, Sorted]
  | node n l r ihl ihr =>
    obtain ⟨hl, hr, hln, hnr⟩ := sorted_node.1 h
    simp only [placed]
    split
    · rename_i hlt
      have hlt : newNode.interval.start < n.interval.start := by simpa [lt] using hlt
      refine sorted_node.2 ⟨ihl hl, hr, ?_, hnr⟩
      intro a ha
      rcases mem_cons.1 ((placed_perm newNode l).mem_iff.1 ha) with rfl | ha
      · exact le_of_lt hlt
      · exact hln a ha
    · rename_i hlt
      have hle : n.interval.start ≤ newNode.interval.start := by simpa [lt] using hlt
      refine sorted_node.2 ⟨hl, ihr hr, hln, ?_⟩
      intro b hb
      rcases mem_cons.1 ((placed_perm newNode r).mem_iff.1 hb) with rfl | hb
      · exact hle
      · exact hnr b hb

variable {path : List (Frame (IntervalNode T U))}

/-- Along the way down the colours are those of the tree, and the empty place has black height zero. -/
theorem around_descend (newNode : IntervalNode T U) (ht : Balanced t n) (hp : Around isRed path n)
    (htop : redNode t = true → Beneath isRed path) : Around isRed (descend newNode t path) 0 := by
  induction ht generalizing path with
  | nil => exact hp
  | red hv hlt hrt hl hr ihl ihr =>
    simp only [descend]
    split
    · exact ihl (.red hv hrt hr (htop hv) hp) fun h => absurd (hlt.symm.trans h) (by simp)
    · exact ihr (.red hv hlt hl (htop hv) hp) fun h => absurd (hrt.symm.trans h) (by simp)
  | black hv hl hr ihl ihr =>
    simp only [descend]
    split
    · exact ihl (.black hv hr hp) fun _ => hv
    · exact ihr (.black hv hl hp) fun _ => hv

/-- Every `max_end` is the end of an interval below, and not less than the node's own. -/
def Sourced : BinaryTree (IntervalNode T U) → Prop
  | .nil => True
  | .node n l r => (n.interval.stop ≤ n.maxEnd ∧ n.maxEnd ∈ ends (.node n l r)) ∧ Sourced l ∧ Sourced r

theorem raiseBy_spec (h : Sourced t) (m : T) : m ≤ raiseBy t m ∧ (raiseBy t m = m ∨ raiseBy t m ∈ ends t) := by
  cases t with
  | nil => exact ⟨le_rfl, .inl rfl⟩
  | node n l r =>
    refine ⟨le_max_left _ _, (max_choice m n.maxEnd).imp_right fun hmax => ?_⟩
    rw [raiseBy, hmax]
    exact h.1.2

theorem Sourced.raised {l r : BinaryTree (IntervalNode T U)} (hl : Sourced l) (hr : Sourced r) (n : IntervalNode T U) :
    Sourced (.node { n with maxEnd := raiseBy r (raiseBy l n.interval.stop) } l r) := by
  obtain ⟨hle, hmem⟩ := raiseBy_spec hl n.interval.stop
  obtain ⟨hle', hmem'⟩ := raiseBy_spec hr (raiseBy l n.interval.stop)
  refine ⟨⟨hle.trans hle', mem_ends_node.2 ?_⟩, hl, hr⟩
  rcases hmem' with hsame | hmem'
  · rw [hsame]
    exact hmem.imp_right .inl
  · exact .inr (.inr hmem')

theorem placed_sourced {newNode : IntervalNode T U} (hnew : Sourced (.node newNode .nil .nil)) (h : Sourced t) :
    Sourced (placed newNode t) := by
  induction t with
  | nil => exact hnew
  | node n l r ihl ihr =>
    obtain ⟨⟨hle, hmem⟩, hl, hr⟩ := h
    have hmax : max n.maxEnd newNode.interval.stop ∈ ends (placed newNode (.node n l r)) := by
      refine mem_ends_placed.2 ((max_choice ..).elim (fun hmax => .inr ?_) .inl)
      rwa [hmax]
    unfold placed at hmax ⊢
    split_ifs at hmax ⊢
    · exact ⟨⟨hle.trans (le_max_left ..), hmax⟩, ihl hl, hr⟩
    · exact ⟨⟨hle.trans (le_max_left ..), hmax⟩, hl, ihr hr⟩

/-- A tree in the place of another: it has the same entries, and its ends are those of intervals if they were. -/
def Replaces (t t' : BinaryTree (IntervalNode T U)) : Prop := entries t' = entries t ∧ (Sourced t → Sourced t')

theorem Replaces.trans {t'' : BinaryTree (IntervalNode T U)} (h : Replaces t t') (h' : Replaces t' t'') :
    Replaces t t'' := ⟨h'.1.trans h.1, h'.2 ∘ h.2⟩

theorem Replaces.plug (h : Replaces t t') (path : List (Frame (IntervalNode T U))) :
    Replaces (plug t path) (plug t' path) := by
  induction path generalizing t t' with
  | nil => exact h
  | cons f path ih =>
    rcases f with ⟨side, v, sibling⟩
    have hends : ends t' = ends t := by rw [ends, h.1, ends]
    cases side with
    | left =>
      refine ih ⟨by simp [fill, h.1], ?_⟩
      simpa only [fill, Sourced, mem_ends_node, hends] using And.imp_right (And.imp_left h.2)
    | right =>
      refine ih ⟨by simp [fill, h.1], ?_⟩
      simpa only [fill, Sourced, mem_ends_node, hends] using And.imp_right (And.imp_right h.2)

theorem replaces_paint (colour : Bool) (t : BinaryTree (IntervalNode T U)) : Replaces t (onTop (paint colour) t) := by
  refine ⟨entries_onTop_paint .., fun h => ?_⟩
  cases t with
  | nil => exact h
  | node n l r => simpa [onTop, Sourced, mem_ends_node, paint] using h

theorem replaces_paintFrame (colour : Bool) (f : Frame (IntervalNode T U)) (t : BinaryTree (IntervalNode T U)) :
    Replaces (f.fill t) ((paintFrame colour f).fill t) := by
  rcases f with ⟨_ | _, v, sibling⟩ <;> exact replaces_paint colour _

/-- A rotation away from a side brings up the child on that side; only `max_end` of the two nodes changes. -/
theorem rotate_other (s : Side) (p g : IntervalNode T U) (near far t : BinaryTree (IntervalNode T U)) :
    ∃ m m', rotate s.other (fill ⟨s, g, far⟩ (fill ⟨s, p, near⟩ t)) =
        some (fill ⟨s, { p with maxEnd := m }, fill ⟨s, { g with maxEnd := m' }, far⟩ near⟩ t) ∧
      Replaces (fill ⟨s, g, far⟩ (fill ⟨s, p, near⟩ t))
        (fill ⟨s, { p with maxEnd := m }, fill ⟨s, { g with maxEnd := m' }, far⟩ near⟩ t) := by
  cases s with
  | left =>
    refine ⟨_, _, rfl, by simp [fill, entry], ?_⟩
    rintro ⟨-, ⟨-, ht, hnear⟩, hfar⟩
    obtain ⟨hle, hmem⟩ := raiseBy_spec ht p.interval.stop
    exact ⟨⟨hle, mem_ends_node.2 (hmem.imp_right .inl)⟩, ht, hnear.raised hfar g⟩
  | right =>
    refine ⟨_, _, rfl, by simp [fill, entry], ?_⟩
    rintro ⟨-, hfar, -, hnear, ht⟩
    exact (hfar.raised hnear g).raised ht p

variable {parent grandparent : Frame (IntervalNode T U)}

/-- The uncle is black and the node is on the outer side. -/
theorem fixupRound_outer (node : BinaryTree (IntervalNode T U))
    (huncle : redNode grandparent.sibling = false) (hside : parent.side = grandparent.side) :
    ∃ m m' frame, fixupRound node parent grandparent = some (node, some frame) ∧
      Replaces (grandparent.fill (parent.fill node)) (frame.fill node) ∧
      frame = ⟨grandparent.side, { parent.value with maxEnd := m, isRed := false },
        fill ⟨grandparent.side, { grandparent.value with maxEnd := m', isRed := true }, grandparent.sibling⟩
          parent.sibling⟩ := by
  rcases parent with ⟨side, p, near⟩
  rcases grandparent with ⟨s, g, far⟩
  obtain rfl : side = s := hside
  obtain ⟨m, m', hrot, hrep⟩ := rotate_other side (p.paint false) (g.paint true) near far node
  refine ⟨m, m', _, ?_, ?_, rfl⟩
  · simp only [fixupRound, huncle, Bool.false_eq_true, if_false, ne_eq, not_true_eq_false, paintFrame, bind_eq_bind,
      bind_some, hrot, down_fill]
    rfl
  · have hpaint := (replaces_paintFrame false ⟨side, p, near⟩ node).plug [⟨side, g, far⟩]
    exact (hpaint.trans (replaces_paintFrame true _ _)).trans hrep

/-- The uncle is black and the node is on the inner side: it comes up first, and the old parent is the next node. -/
theorem fixupRound_inner (v : IntervalNode T U)
    (inner outer : BinaryTree (IntervalNode T U)) (huncle : redNode grandparent.sibling = false)
    (hside : parent.side ≠ grandparent.side) :
    ∃ m m' m'' node frame, fixupRound (fill ⟨grandparent.side.other, v, inner⟩ outer) parent grandparent =
        some (node, some frame) ∧
      Replaces (grandparent.fill (parent.fill (fill ⟨grandparent.side.other, v, inner⟩ outer))) (frame.fill node) ∧
      node = fill ⟨grandparent.side.other, { parent.value with maxEnd := m }, parent.sibling⟩ inner ∧
      frame = ⟨grandparent.side, { v with maxEnd := m', isRed := false },
        fill ⟨grandparent.side, { grandparent.value with maxEnd := m'', isRed := true }, grandparent.sibling⟩
          outer⟩ := by
  rcases parent with ⟨side, p, near⟩
  rcases grandparent with ⟨s, g, far⟩
  obtain rfl : side = s.other := Side.eq_other hside
  obtain ⟨m0, m, hrot, hrep⟩ := rotate_other s.other v p inner near outer
  rw [Side.other_other] at hrot
  obtain ⟨m', m'', hrot', hrep'⟩ := rotate_other s ({ v with maxEnd := m0 }.paint false) (g.paint true) outer far
    (fill ⟨s.other, { p with maxEnd := m }, near⟩ inner)
  refine ⟨m, m', m'', _, _, ?_, ?_, rfl, rfl⟩
  · simp only [fixupRound, huncle, Bool.false_eq_true, if_false, if_pos hside, paintFrame, bind_eq_bind,
      bind_some, hrot, hrot', down_fill, down_fill_other]
    rfl
  · have hpaint := ((hrep.trans (replaces_paint false _)).plug [⟨s, g, far⟩]).trans (replaces_paintFrame true _ _)
    cases s <;> exact hpaint.trans hrep'

/-- What holds at the node of each round: only the node and its parent may both be red. -/
structure Ready (node : BinaryTree (IntervalNode T U)) (path : List (Frame (IntervalNode T U))) : Prop where
  red : redNode node = true
  fits : ∃ n, Balanced node n ∧ Around isRed path n

omit [LinearOrder T] in
variable {node : BinaryTree (IntervalNode T U)} {inserted : List (Interval T × U)}

/-- The uncle is red: the node of the next round is the grandparent. -/
theorem ready_recolour (hnode : Balanced node n)
    (hpar : Balanced parent.sibling n) (huncle : Balanced grandparent.sibling n)
    (hred : redNode grandparent.sibling = true) (hpath : Around isRed path (n + 1)) :
    ∃ node', fixupRound node parent grandparent = some (node', none) ∧
      Replaces (grandparent.fill (parent.fill node)) node' ∧ Ready node' path := by
  refine ⟨_, by simp only [fixupRound, hred, if_true]; rfl, ?_, by simp [redNode, paintFrame, paint], n + 1, ?_, hpath⟩
  · have hpaint := ((replaces_paintFrame false parent node).plug [grandparent]).trans (replaces_paintFrame true _ _)
    rcases grandparent with ⟨_ | _, g, far⟩
    · exact hpaint.trans ((replaces_paint false far).plug [⟨.right, g.paint true, (paintFrame false parent).fill node⟩])
    · exact hpaint.trans ((replaces_paint false far).plug [⟨.left, g.paint true, (paintFrame false parent).fill node⟩])
  · refine .fill_red rfl ?_ ?_ (huncle.paint_black hred) (.fill_black rfl hpar hnode)
    · cases hfar : grandparent.sibling <;> rfl
    · rw [topRed_fill]
      rfl

/-- The uncle is black: after one or two rotations the node has a black parent. -/
theorem ready_rotate (hnode : Balanced node n) (hred : redNode node = true)
    (hpar : Balanced parent.sibling n) (hparentRed : parent.value.isRed = true)
    (hsibling : redNode parent.sibling = false) (huncle : Balanced grandparent.sibling n)
    (hblack : redNode grandparent.sibling = false) (hpath : Around isRed path (n + 1)) :
    ∃ node' frame, fixupRound node parent grandparent = some (node', some frame) ∧
      Replaces (grandparent.fill (parent.fill node)) (frame.fill node') ∧ Ready node' (frame :: path) := by
  by_cases hside : parent.side = grandparent.side
  · obtain ⟨m, m', _, hround, hrep, rfl⟩ := fixupRound_outer node hblack hside
    exact ⟨_, _, hround, hrep, hred, n, hnode, .black rfl (.fill_red rfl hblack hsibling huncle hpar) hpath⟩
  · rcases node with _ | ⟨v, l, r⟩
    · cases hred
    · obtain ⟨inner, outer, hfill⟩ := exists_fill grandparent.side.other v l r
      rw [hfill] at hnode ⊢
      obtain ⟨hinnerTop, houterTop, hinner, houter⟩ := RedBlack.of_fill_red hred hnode
      obtain ⟨m, m', m'', _, _, hround, hrep, rfl, rfl⟩ := fixupRound_inner v inner outer hblack hside
      refine ⟨_, _, hround, hrep, ?_, n, .fill_red hparentRed hsibling hinnerTop hpar hinner, .black rfl ?_ hpath⟩
      · exact (topRed_fill ..).trans hparentRed
      · exact .fill_red rfl hblack houterTop huncle houter

/-- A round at a node with a red parent: the grandparent exists, no rotation fails. -/
theorem fixupRound_spec (h : Ready node (parent :: grandparent :: path)) (hparentRed : parent.value.isRed = true) :
    ∃ node' frame, fixupRound node parent grandparent = some (node', frame) ∧
      Replaces (plug node [parent, grandparent]) (plug node' frame.toList) ∧
      Ready node' (frame.toList ++ path) := by
  obtain ⟨hred, n, hnode, haround⟩ := h
  cases haround with
  | black hv => exact absurd (hv.symm.trans hparentRed) (by simp)
  | red _ hsibling hpar hbeneath haround =>
    cases haround with
    | red hv => exact absurd (hv.symm.trans hbeneath) (by simp)
    | black _ huncle hpath =>
      cases hcolour : redNode grandparent.sibling with
      | true =>
        obtain ⟨node', hround, hrep, hready⟩ := ready_recolour hnode hpar huncle hcolour hpath
        exact ⟨node', none, hround, hrep, hready⟩
      | false =>
        obtain ⟨node', frame, hround, hrep, hready⟩ :=
          ready_rotate hnode hred hpar hparentRed hsibling huncle hcolour hpath
        exact ⟨node', some frame, hround, hrep, hready⟩

/-- The top is black and the colours are in order. -/
def Settled (t : BinaryTree (IntervalNode T U)) : Prop := redNode t = false ∧ ∃ n, Balanced t n

omit [LinearOrder T] in
theorem settled_paint (h : Balanced t n) : Settled (onTop (paint false) t) := by
  refine ⟨by cases t <;> rfl, ?_⟩
  cases h with
  | nil => exact ⟨0, .nil⟩
  | red _ _ _ hl hr | black _ hl hr => exact ⟨_, .black rfl hl hr⟩

theorem insertFixup_spec (h : Ready node path) :
    ∃ t, insertFixup node path = some t ∧ Replaces (plug node path) t ∧ Settled t := by
  induction node, path using insertFixup.induct with
  | case1 node =>
    obtain ⟨_, n, hnode, _⟩ := h
    exact ⟨_, insertFixup.eq_1 node, replaces_paint .., settled_paint hnode⟩
  | case2 node parent hred =>
    -- A red node is beneath a black one, so it is not the root.
    obtain ⟨_, n, _, haround⟩ := h
    cases haround with
    | red _ _ _ hbeneath => exact hbeneath.elim
    | black hv => exact absurd (hv.symm.trans hred) (by simp)
  | case3 node parent hred grandparent path hround =>
    obtain ⟨node', frame, hsome, _⟩ := fixupRound_spec h hred
    rw [hround] at hsome
    cases hsome
  | case4 node parent hred grandparent path node' frame hround ih =>
    obtain ⟨node'', frame', hsome, hrep, hready⟩ := fixupRound_spec h hred
    obtain ⟨rfl, rfl⟩ : node' = node'' ∧ frame = frame' := by simpa using hround.symm.trans hsome
    obtain ⟨t, ht, hrest, hsettled⟩ := ih hready
    refine ⟨t, ?_, ?_, hsettled⟩
    · rw [insertFixup, if_pos hred]
      simp [hround, ht]
    · rw [plug_append] at hrest
      exact (hrep.plug path).trans hrest
  | case5 node parent path hblack =>
    obtain ⟨hred, n, hnode, haround⟩ := h
    have hpar : parent.value.isRed = false := by simpa using hblack
    obtain ⟨m, hwhole⟩ := RedBlack.plug haround hnode fun _ => .inr hpar
    refine ⟨_, ?_, replaces_paint .., settled_paint hwhole⟩
    rw [insertFixup.eq_def]
    exact if_neg hblack

/-- A tree that holds the inserted intervals, in order and balanced. -/
structure Holds (t : IntervalTree T U) (inserted : List (Interval T × U)) : Prop where
  entries : (entries t.root).Perm inserted
  sorted : Sorted t.root
  settled : Settled t.root
  len : t.len = inserted.length

theorem Holds.init : Holds (init : IntervalTree T U) [] := ⟨.refl _, .nil, ⟨rfl, 0, .nil⟩, rfl⟩

theorem sourced_init {interval : Interval T} {data : U} : Sourced (.node (.init interval data) .nil .nil) :=
  ⟨⟨le_rfl, mem_ends_node.2 (.inl rfl)⟩, trivial, trivial⟩

theorem Holds.insert {t : IntervalTree T U} (h : Holds t inserted) (hends : Sourced t.root) (interval : Interval T)
    (data : U) : ∃ t', t.insert interval data = some t' ∧ Holds t' (inserted ++ [(interval, data)]) ∧
      Sourced t'.root := by
  rcases t with ⟨root, len⟩
  obtain ⟨hents, hsort, ⟨htop, n, hbalanced⟩, hlen⟩ := h
  have hadded : ((interval, data) :: inserted).Perm (inserted ++ [(interval, data)]) := (perm_append_singleton ..).symm
  cases root with
  | nil =>
    refine ⟨_, rfl, ⟨?_, ?_, ⟨rfl, 1, .black rfl .nil .nil⟩, by simpa using hlen⟩, ?_⟩
    · exact (hents.cons _).trans hadded
    · simp [Sorted]
    · exact (replaces_paint false _).2 sourced_init
  | node v l r =>
    have hready : Ready (.node (IntervalNode.init interval data) .nil .nil)
        (descend (IntervalNode.init interval data) (.node v l r) []) := by
      refine ⟨rfl, 0, .red rfl rfl rfl .nil .nil, around_descend _ hbalanced .root fun h => ?_⟩
      exact absurd (htop.symm.trans h) (by simp)
    obtain ⟨t', ht', hrep, hsettled⟩ := insertFixup_spec hready
    rw [plug_descend] at hrep
    refine ⟨⟨t', len + 1⟩, by simp [IntervalTree.insert, ht'], ⟨?_, ?_, hsettled, by simpa using hlen⟩, ?_⟩
    · exact hrep.1 ▸ (placed_perm _ _).trans ((hents.cons _).trans hadded)
    · rw [Sorted, hrep.1]
      exact placed_sorted hsort
    · exact hrep.2 (placed_sourced sourced_init hends)

theorem insertAll_holds (inserted : List (Interval T × U)) :
    ∃ t : IntervalTree T U, insertAll inserted = some t ∧ Holds t inserted ∧ Sourced t.root := by
  induction inserted using reverseRecOn with
  | nil => exact ⟨_, rfl, .init, trivial⟩
  | append_singleton inserted entry ih =>
    obtain ⟨t, ht, hholds, hends⟩ := ih
    obtain ⟨t', ht', hnext⟩ := hholds.insert hends entry.1 entry.2
    refine ⟨t', ?_, hnext⟩
    rw [insertAll, foldlM_append]
    simp only [insertAll] at ht
    simp [ht, ht']

/-- Every `max_end` is the greatest end below its node. -/
def Augmented : BinaryTree (IntervalNode T U) → Prop
  | .nil => True
  | .node n l r => (ends (.node n l r)).maximum = n.maxEnd ∧ Augmented l ∧ Augmented r

def Nested : BinaryTree (IntervalNode T U) → Prop
  | .nil => True
  | .node n l r => (raiseBy l n.maxEnd = n.maxEnd ∧ raiseBy r n.maxEnd = n.maxEnd) ∧ Nested l ∧ Nested r

theorem raiseBy_eq_self (h : Augmented t) {m : T} : raiseBy t m = m ↔ ∀ e ∈ ends t, e ≤ m := by
  cases t with
  | nil => simp [raiseBy, ends, entries, inorder]
  | node n l r =>
    obtain ⟨hmem, hle⟩ := maximum_eq_coe_iff.1 h.1
    rw [raiseBy, max_eq_left_iff]
    exact ⟨fun hm e he => (hle e he).trans hm, fun hall => hall _ hmem⟩

theorem Sourced.augmented_iff (h : Sourced t) : Augmented t ↔ Nested t := by
  induction t with
  | nil => exact .rfl
  | node n l r ihl ihr =>
    obtain ⟨⟨hown, hmem⟩, hl, hr⟩ := h
    constructor
    · rintro ⟨hmax, hl', hr'⟩
      have hle := (maximum_eq_coe_iff.1 hmax).2
      refine ⟨⟨(raiseBy_eq_self hl').2 fun e he => ?_, (raiseBy_eq_self hr').2 fun e he => ?_⟩, (ihl hl).1 hl',
        (ihr hr).1 hr'⟩
      · exact hle e (mem_ends_node.2 (.inr (.inl he)))
      · exact hle e (mem_ends_node.2 (.inr (.inr he)))
    · rintro ⟨⟨hleft, hright⟩, hl', hr'⟩
      replace hl' := (ihl hl).2 hl'
      replace hr' := (ihr hr).2 hr'
      refine ⟨maximum_eq_coe_iff.2 ⟨hmem, fun e he => ?_⟩, hl', hr'⟩
      rcases mem_ends_node.1 he with rfl | he | he
      · exact hown
      · exact (raiseBy_eq_self hl').1 hleft e he
      · exact (raiseBy_eq_self hr').1 hright e he

/-- The depth is logarithmic in the number of intervals. -/
theorem Holds.height_le {t : IntervalTree T U} (h : Holds t inserted) : t.root.height ≤ 2 * Nat.log 2 (t.len + 1) := by
  obtain ⟨hents, -, ⟨htop, n, hbalanced⟩, hlen⟩ := h
  have hnodes : t.root.numNodes = t.len := by
    rw [← length_inorder, hlen, ← hents.length_eq]
    exact (length_map _).symm
  have hheight : t.root.height ≤ 2 * n := by
    have hle := hbalanced.height_le
    rw [show topRed isRed t.root = false from htop] at hle
    exact hle
  have hlog : n ≤ Nat.log 2 (t.len + 1) := Nat.le_log_of_pow_le (by omega) (hnodes ▸ hbalanced.pow_le)
  omega

/-- **The tree stays balanced.** No insertion fails; the tree has what was inserted, in order, and a logarithmic depth. -/
theorem insertAll_balanced (inserted : List (Interval T × U)) : ∃ t : IntervalTree T U, insertAll inserted = some t ∧
    Holds t inserted ∧ t.root.height ≤ 2 * Nat.log 2 (t.len + 1) := by
  obtain ⟨t, ht, hholds, -⟩ := insertAll_holds inserted
  exact ⟨t, ht, hholds, hholds.height_le⟩

end IntervalTree

end MojoProse.Stdlib
