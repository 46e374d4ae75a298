import Mathlib.Order.Lattice
import Mathlib.Order.Defs.LinearOrder
import MojoProse.Schemes.TreeCursor

/-! `IntervalTree` (`interval.mojo`): a red-black tree of intervals, ordered by where they start, whose nodes also keep
    the greatest end below them. A place in the tree stands for a node pointer of the source: the path of the place is
    the node's parent, its grandparent and so on up to the root. -/

namespace MojoProse.Stdlib

open Schemes List

variable {T U : Type}

/-- `Interval`; `stop` is its `end`. The constructors enforce nothing about the two. -/
structure Interval (T : Type) where
  start : T
  stop : T
  deriving DecidableEq

/-- `_IntervalNode`, without its links. -/
structure IntervalNode (T U : Type) where
  interval : Interval T
  data : U
  maxEnd : T
  isRed : Bool
  deriving DecidableEq

/-- `IntervalTree`. -/
structure IntervalTree (T U : Type) where
  root : BinaryTree (IntervalNode T U)
  len : ℕ
  deriving DecidableEq

namespace IntervalNode

def init (interval : Interval T) (data : U) : IntervalNode T U :=
  { interval, data, maxEnd := interval.stop, isRed := true }

def paint (colour : Bool) (n : IntervalNode T U) : IntervalNode T U := { n with isRed := colour }

end IntervalNode

/-- `uncle_node and uncle_node.value()[]._is_red`. -/
def redNode : BinaryTree (IntervalNode T U) → Bool := topRed IntervalNode.isRed

def paintFrame (colour : Bool) (f : Frame (IntervalNode T U)) : Frame (IntervalNode T U) :=
  { f with value := f.value.paint colour }

variable [LinearOrder T]

def Interval.overlaps (self other : Interval T) : Bool := other.start < self.stop && other.stop > self.start

/-- `_IntervalNode.__lt__`, by `Interval.__lt__`. -/
def IntervalNode.lt (self other : IntervalNode T U) : Bool := self.interval.start < other.interval.start

namespace IntervalTree

/-- `if child: max_end = max(max_end, child.max_end)`. -/
def raiseBy (child : BinaryTree (IntervalNode T U)) (maxEnd : T) : T :=
  match child with
  | .nil => maxEnd
  | .node n _ _ => max maxEnd n.maxEnd

/-- `_left_rotate`; `none` is the failed assertion. -/
def leftRotate : BinaryTree (IntervalNode T U) → Option (BinaryTree (IntervalNode T U))
  | .node x a (.node y b c) =>
    let x' := { x with maxEnd := raiseBy b (raiseBy a x.interval.stop) }
    let y' := { y with maxEnd := raiseBy c (raiseBy (.node x' a b) y.interval.stop) }
    some (.node y' (.node x' a b) c)
  | _ => none

/-- Unlike in `_left_rotate`, the `max_end` of the node that comes up is not raised by its new right child. -/
def rightRotate : BinaryTree (IntervalNode T U) → Option (BinaryTree (IntervalNode T U))
  | .node y (.node x a b) c =>
    let y' := { y with maxEnd := raiseBy c (raiseBy b y.interval.stop) }
    let x' := { x with maxEnd := raiseBy a x.interval.stop }
    some (.node x' a (.node y' b c))
  | _ => none

def rotate : Side → BinaryTree (IntervalNode T U) → Option (BinaryTree (IntervalNode T U))
  | .left => leftRotate
  | .right => rightRotate

/-- The loop of `insert`: the way down to the empty place, with `max_end` raised along it. -/
def descend (newNode : IntervalNode T U) :
    BinaryTree (IntervalNode T U) → List (Frame (IntervalNode T U)) → List (Frame (IntervalNode T U))
  | .nil, path => path
  | .node n l r, path =>
    let n' := { n with maxEnd := max n.maxEnd newNode.interval.stop }
    if newNode.lt n then descend newNode l (⟨.left, n', r⟩ :: path)
    else descend newNode r (⟨.right, n', l⟩ :: path)

/-- A round of `_insert_fixup` at a node with a red parent: the place of the next round, with the new frame above it.
    The source writes the body twice; `grandparent.side` tells which. -/
def fixupRound (node : BinaryTree (IntervalNode T U)) (parent grandparent : Frame (IntervalNode T U)) :
    Option (BinaryTree (IntervalNode T U) × Option (Frame (IntervalNode T U))) :=
  let uncle := grandparent.sibling
  if redNode uncle then
    let uncle' := onTop (IntervalNode.paint false) uncle
    let top : Frame (IntervalNode T U) := { paintFrame true grandparent with sibling := uncle' }
    some (top.fill ((paintFrame false parent).fill node), none)
  else do
    let (node, parent) ←
      if parent.side ≠ grandparent.side then do
        let turned ← rotate grandparent.side (parent.fill node)
        down grandparent.side turned
      else some (node, parent)
    let top := (paintFrame true grandparent).fill ((paintFrame false parent).fill node)
    let turned ← rotate grandparent.side.other top
    let (node, parent) ← down grandparent.side turned
    some (node, some parent)

/-- `_insert_fixup`; `none` if a missing grandparent is dereferenced or a rotation's assertion fails. -/
def insertFixup (node : BinaryTree (IntervalNode T U)) :
    List (Frame (IntervalNode T U)) → Option (BinaryTree (IntervalNode T U))
  | [] => some (onTop (IntervalNode.paint false) node)
  | parent :: path =>
    if parent.value.isRed then
      match path with
      | [] => none
      | grandparent :: path =>
        match fixupRound node parent grandparent with
        | none => none
        | some (node, frame) => insertFixup node (frame.toList ++ path)
    else some (onTop (IntervalNode.paint false) (plug node (parent :: path)))
  termination_by path => path.length
  decreasing_by
    rcases frame with _ | frame <;> simp only [Option.toList, nil_append, cons_append, length_cons] <;>
      omega

def insert (t : IntervalTree T U) (interval : Interval T) (data : U) : Option (IntervalTree T U) :=
  let newNode := IntervalNode.init interval data
  match t.root with
  | .nil => some { root := .node (newNode.paint false) .nil .nil, len := t.len + 1 }
  | root@(.node ..) =>
    (insertFixup (.node newNode .nil .nil) (descend newNode root [])).map ({ root := ·, len := t.len + 1 })

def init : IntervalTree T U := { root := .nil, len := 0 }

def insertAll (inserted : List (Interval T × U)) : Option (IntervalTree T U) :=
  inserted.foldlM (fun t entry => t.insert entry.1 entry.2) init

/-- Whether `_search_helper` puts the left child on its work list: by the start of that child alone. -/
def entersLeft (interval : Interval T) : BinaryTree (IntervalNode T U) → Bool
  | .nil => false
  | .node n _ _ => n.interval.start ≤ interval.stop

/-- Whether it puts the right child there: by the greatest end that the child keeps. -/
def entersRight (interval : Interval T) : BinaryTree (IntervalNode T U) → Bool
  | .nil => false
  | .node n _ _ => n.maxEnd ≥ interval.start

/-- The loop of `_search_helper`; the head of `workList` is its last element, which `pop` takes. -/
def searchHelper (interval : Interval T) : List (BinaryTree (IntervalNode T U)) → List U → List U
  | [], result => result
  | .nil :: workList, result => searchHelper interval workList result
  | .node n l r :: workList, result =>
    let result := if n.interval.overlaps interval then result ++ [n.data] else result
    let workList := if entersLeft interval l then l :: workList else workList
    let workList := if entersRight interval r then r :: workList else workList
    searchHelper interval workList result
  termination_by workList => (workList.map fun t => 2 * t.numNodes + 1).sum
  decreasing_by
    · simp
    · simp only [BinaryTree.numNodes, map_cons, sum_cons]
      split <;> split <;> (try simp only [map_cons, sum_cons]) <;> omega

def search (t : IntervalTree T U) (interval : Interval T) : List U := searchHelper interval [t.root] []

end IntervalTree

end MojoProse.Stdlib
