import Mathlib.Data.Nat.Size
import MojoProse.Schemes.Ring

/-! `Deque` (`deque.mojo`): a ring buffer that grows and shrinks, and the list that it stands for. -/

namespace MojoProse.Stdlib

open Schemes List

/-- `Deque`: `_maxlen` is -1 if there is no bound. -/
structure Deque (α : Type) where
  data : Cells α
  head : ℕ
  tail : ℕ
  capacity : ℕ
  minCapacity : ℕ
  maxlen : ℤ
  shrink : Bool

inductive DequeError where
  | maximumSize
  | notInDeque
  | empty
  deriving DecidableEq

/-- Why a method does not return: it raises, or a bounds check ends the program. -/
inductive DequeFailure where
  | raises (error : DequeError)
  | outOfBounds
  deriving DecidableEq

/-- `next_power_of_two` (`bit.mojo`). -/
def nextPowerOfTwo (val : ℕ) : ℕ := if 1 < val then 1 <<< (val - 1).size else 1

namespace Deque

variable {α : Type}

variable (d : Deque α)

def physicalIndex (logicalIndex : ℤ) : ℕ := (logicalIndex.land (d.capacity - 1)).toNat

def len : ℕ := ((d.tail - d.head : ℤ).land (d.capacity - 1)).toNat

def realloc (newCapacity : ℕ) : Deque α :=
  let dequeLen := if d.head = d.tail ∧ newCapacity > d.capacity then d.capacity else d.len
  let headLen := if d.capacity - d.head > dequeLen then dequeLen else d.capacity - d.head
  let tailLen := if d.capacity - d.head > dequeLen then 0 else d.tail
  let newData := copies headLen (d.head + ·) id d.data fun _ => none
  let newData := copies tailLen id (headLen + ·) d.data newData
  { d with data := newData, head := 0, tail := dequeLen, capacity := newCapacity }

def prepareForNewElements (nTotal nRetain : ℕ) : Deque α :=
  let newCapacity := if nextPowerOfTwo nTotal = nTotal then nextPowerOfTwo nTotal <<< 1 else nextPowerOfTwo nTotal
  let newData := copies nRetain (fun i => d.physicalIndex (d.head + i)) id d.data fun _ => none
  { d with data := newData, capacity := newCapacity, head := 0, tail := nRetain }

def dropLeft : Deque α :=
  { d with data := d.data.destroy d.head, head := d.physicalIndex (d.head + 1) }

def dropRight : Deque α :=
  { d with data := d.data.destroy (d.physicalIndex (d.tail - 1)), tail := d.physicalIndex (d.tail - 1) }

def pushRight (value : α) : Deque α :=
  { d with data := d.data.write d.tail value, tail := d.physicalIndex (d.tail + 1) }

def pushLeft (value : α) : Deque α :=
  { d with data := d.data.write (d.physicalIndex (d.head - 1)) value, head := d.physicalIndex (d.head - 1) }

/-- The end of the methods that add an element: a full buffer is doubled. -/
def grow : Deque α := if d.head = d.tail then d.realloc (d.capacity <<< 1) else d

/-- The end of the methods that remove an element: a buffer with few elements is halved. -/
def shrinkIfSparse : Deque α :=
  if d.shrink ∧ d.capacity > d.minCapacity ∧ d.capacity / 4 ≥ d.len then d.realloc (d.capacity >>> 1) else d

def append (value : α) : Deque α :=
  ((if 0 < d.maxlen ∧ d.len = d.maxlen then d.dropLeft else d).pushRight value).grow

def appendleft (value : α) : Deque α :=
  ((if 0 < d.maxlen ∧ d.len = d.maxlen then d.dropRight else d).pushLeft value).grow

def clear : Deque α :=
  { d with data := fun _ => none, capacity := d.minCapacity, head := 0, tail := 0 }

/-- What `_compute_pop_and_move_counts` returns. -/
structure Counts where
  moveTotal : ℕ
  moveSelf : ℕ
  moveValues : ℕ
  popSelf : ℕ
  popValues : ℕ

variable (d : Deque α)

def computePopAndMoveCounts (lenSelf lenValues : ℕ) : Counts :=
  let lenTotal := lenSelf + lenValues
  let moveTotal := if 0 < d.maxlen then min lenTotal d.maxlen.toNat else lenTotal
  let moveValues := min lenValues moveTotal
  let moveSelf := moveTotal - moveValues
  ⟨moveTotal, moveSelf, moveValues, lenSelf - moveSelf, lenValues - moveValues⟩

def extend (values : List α) : Deque α :=
  let n := d.computePopAndMoveCounts d.len values.length
  let d := dropLeft^[n.popSelf] d
  let d := if n.moveTotal ≥ d.capacity then d.prepareForNewElements n.moveTotal n.moveSelf else d
  ((values.drop n.popValues).take n.moveValues).foldl pushRight d

def extendleft (values : List α) : Deque α :=
  let n := d.computePopAndMoveCounts d.len values.length
  let d := dropRight^[n.popSelf] d
  let d := if n.moveTotal ≥ d.capacity then d.prepareForNewElements n.moveTotal n.moveSelf else d
  ((values.drop n.popValues).take n.moveValues).foldl pushLeft d

/-- The shift of `insert`: the shorter side makes room at an index. -/
def makeRoom (idx : ℕ) : Deque α :=
  if idx ≤ d.len / 2 then
    let src i := d.physicalIndex (d.head + (i : ℕ))
    let dst i := d.physicalIndex (src i - 1)
    { d with data := moves (range idx) src dst d.data, head := d.physicalIndex (d.head - 1) }
  else
    let dst i := d.physicalIndex (d.tail - (i : ℕ))
    let src i := d.physicalIndex (dst i - 1)
    { d with data := moves (range (d.len - idx)) src dst d.data, tail := d.physicalIndex (d.tail + 1) }

def insert (idx : ℤ) (value : α) : Except DequeFailure (Deque α) :=
  if d.len = d.maxlen then .error (.raises .maximumSize)
  else if ¬(0 ≤ idx ∧ idx < d.len + 1) then .error .outOfBounds
  else
    let d := d.makeRoom idx.toNat
    .ok (grow { d with data := d.data.write (d.physicalIndex (d.head + idx)) value })

/-- The shift of `remove`: the shorter side closes the gap at an index. -/
def closeGap (idx : ℕ) : Deque α :=
  let data := d.data.destroy (d.physicalIndex (d.head + idx))
  let src i := d.physicalIndex (d.head + (i : ℕ))
  if idx < d.len / 2 then
    let dst i := d.physicalIndex (src i + 1)
    { d with data := moves (range idx).reverse src dst data, head := d.physicalIndex (d.head + 1) }
  else
    let dst i := d.physicalIndex (src i - 1)
    { d with data := moves (range' (idx + 1) (d.len - (idx + 1))) src dst data,
             tail := d.physicalIndex (d.tail - 1) }

def remove [DecidableEq α] (d : Deque α) (value : α) : Except DequeFailure (Deque α) :=
  match (range d.len).find? fun (idx : ℕ) => d.data (d.physicalIndex (d.head + idx)) = some value with
  | none => .error (.raises .notInDeque)
  | some idx => .ok (d.closeGap idx).shrinkIfSparse

def pop : Except DequeFailure (Deque α × Option α) :=
  if d.head = d.tail then .error (.raises .empty)
  else .ok (d.dropRight.shrinkIfSparse, d.data (d.physicalIndex (d.tail - 1)))

def popleft : Except DequeFailure (Deque α × Option α) :=
  if d.head = d.tail then .error (.raises .empty)
  else .ok (d.dropLeft.shrinkIfSparse, d.data d.head)

def reverse : Deque α :=
  let last : ℤ := d.head + d.len - 1
  { d with data := swaps (range (d.len / 2)) (fun i => d.physicalIndex (d.head + i))
                     (fun i => d.physicalIndex (last - i)) d.data }

/-- A step of `rotate` to the left. -/
def rotateLeft : Deque α :=
  { d with data := d.data.move d.head d.tail, tail := d.physicalIndex (d.tail + 1),
           head := d.physicalIndex (d.head + 1) }

/-- A step of `rotate` to the right. -/
def rotateRight : Deque α :=
  { d with data := d.data.move (d.physicalIndex (d.tail - 1)) (d.physicalIndex (d.head - 1)),
           tail := d.physicalIndex (d.tail - 1), head := d.physicalIndex (d.head - 1) }

/-- `rotate`, by a 64-bit `Int`: its negation wraps around, and a `range` to a negative number is empty. -/
def rotate (n : BitVec 64) : Deque α :=
  if n.toInt < 0 then rotateLeft^[(-n).toInt.toNat] d else rotateRight^[n.toInt.toNat] d

def getitem (idx : ℤ) : Except DequeFailure (Option α) :=
  if 0 ≤ idx ∧ idx < d.len then .ok (d.data (d.physicalIndex (d.head + idx))) else .error .outOfBounds

/-- What `__iter__` runs through. -/
def iterate : List (Option α) :=
  (range d.len).map fun (i : ℕ) => d.data (d.physicalIndex (d.head + i))

/-- What `__reversed__` runs through. -/
def iterateReversed : List (Option α) :=
  (range d.len).reverse.map fun (i : ℕ) => d.data (d.physicalIndex (d.head + i))

/-- The constructor's capacity for an argument; the default is 64. -/
def capacityOf (capacity : ℤ) : ℕ := if capacity ≤ 0 then 64 else nextPowerOfTwo capacity.toNat

def init (elements : Option (List α)) (capacity minCapacity maxlen : ℤ) (shrink : Bool) : Deque α :=
  let maxDequeCapacity :=
    if nextPowerOfTwo maxlen.toNat = maxlen then nextPowerOfTwo maxlen.toNat <<< 1 else nextPowerOfTwo maxlen.toNat
  let d : Deque α :=
    { data := fun _ => none
      head := 0
      tail := 0
      capacity := if maxlen ≤ 0 then capacityOf capacity else min (capacityOf capacity) maxDequeCapacity
      minCapacity := capacityOf minCapacity
      maxlen := if maxlen ≤ 0 then -1 else maxlen
      shrink := shrink }
  match elements with
  | none => d
  | some elements => d.extend elements

end Deque

inductive DequeOp (α : Type) where
  | append (value : α)
  | appendleft (value : α)
  | extend (values : List α)
  | extendleft (values : List α)
  | insert (idx : ℤ) (value : α)
  | remove (value : α)
  | pop
  | popleft
  | clear
  | reverse
  | rotate (n : BitVec 64)
  | getitem (idx : ℤ)
  | iterate
  | iterateReversed

inductive DequeOutcome (α : Type) where
  | done
  | element (cell : Option α)
  | elements (cells : List (Option α))
  | raised (error : DequeError)

variable {α : Type}

/-- An operation's outcome; one that raises leaves the deque as it is, a failed bounds check ends the run. -/
def settle {σ ρ : Type} (s : σ) (result : Except DequeFailure ρ) (next : ρ → σ × DequeOutcome α) :
    Option (σ × DequeOutcome α) :=
  match result with
  | .ok r => some (next r)
  | .error (.raises error) => some (s, .raised error)
  | .error .outOfBounds => none

def Deque.step [DecidableEq α] (d : Deque α) : DequeOp α → Option (Deque α × DequeOutcome α)
  | .append value => some (d.append value, .done)
  | .appendleft value => some (d.appendleft value, .done)
  | .extend values => some (d.extend values, .done)
  | .extendleft values => some (d.extendleft values, .done)
  | .insert idx value => settle d (d.insert idx value) fun d => (d, .done)
  | .remove value => settle d (d.remove value) fun d => (d, .done)
  | .pop => settle d d.pop fun (d, cell) => (d, .element cell)
  | .popleft => settle d d.popleft fun (d, cell) => (d, .element cell)
  | .clear => some (d.clear, .done)
  | .reverse => some (d.reverse, .done)
  | .rotate n => some (d.rotate n, .done)
  | .getitem idx => settle d (d.getitem idx) fun cell => (d, .element cell)
  | .iterate => some (d, .elements d.iterate)
  | .iterateReversed => some (d, .elements d.iterateReversed)

/-- The outcomes of a run and its last state; there is none if a bounds check has ended the run. -/
def runOps {σ : Type} (step : σ → DequeOp α → Option (σ × DequeOutcome α)) :
    σ → List (DequeOp α) → List (DequeOutcome α) × Option σ
  | s, [] => ([], some s)
  | s, op :: ops =>
    match step s op with
    | none => ([], none)
    | some (s', outcome) => (outcome :: (runOps step s' ops).1, (runOps step s' ops).2)

namespace BoundedList

def keepRight (bound : Option ℕ) (l : List α) : List α :=
  match bound with
  | none => l
  | some m => l.drop (l.length - m)

def keepLeft (bound : Option ℕ) (l : List α) : List α :=
  match bound with
  | none => l
  | some m => l.take m

def rotate (n : ℤ) (l : List α) : List α := l.rotate (-n % l.length).toNat

/-- **The operations on a bounded list.** -/
def step [DecidableEq α] (bound : Option ℕ) (l : List α) : DequeOp α → Option (List α × DequeOutcome α)
  | .append value => some (keepRight bound (l ++ [value]), .done)
  | .appendleft value => some (keepLeft bound (value :: l), .done)
  | .extend values => some (keepRight bound (l ++ values), .done)
  | .extendleft values => some (keepLeft bound (values.reverse ++ l), .done)
  | .insert idx value =>
    if bound = some l.length then some (l, .raised .maximumSize)
    else if 0 ≤ idx ∧ idx ≤ l.length then some (l.insertIdx idx.toNat value, .done)
    else none
  | .remove value => if value ∈ l then some (l.erase value, .done) else some (l, .raised .notInDeque)
  | .pop =>
    match l.getLast? with
    | none => some (l, .raised .empty)
    | some a => some (l.dropLast, .element (some a))
  | .popleft =>
    match l with
    | [] => some (l, .raised .empty)
    | a :: rest => some (rest, .element (some a))
  | .clear => some ([], .done)
  | .reverse => some (l.reverse, .done)
  | .rotate n => some (rotate n.toInt l, .done)
  | .getitem idx => if 0 ≤ idx ∧ idx < l.length then some (l, .element l[idx.toNat]?) else none
  | .iterate => some (l, .elements (l.map some))
  | .iterateReversed => some (l, .elements (l.reverse.map some))

end BoundedList

/-- The bound for the constructor's `maxlen`; none if it is not positive. -/
def boundOf (maxlen : ℤ) : Option ℕ := if maxlen ≤ 0 then none else some maxlen.toNat

end MojoProse.Stdlib
