import MojoProse.Schemes.Arrange
import MojoProse.Schemes.Loop

/-! `sort` (`sort.mojo`): insertion sort for short spans, quicksort with an explicit stack, and a bottom-up merge sort
    for `stable=True`. `cmp_fn` is a test. A span is a list, and an access outside of it is a fault; a cell that was
    moved from keeps its value. -/

namespace MojoProse.Stdlib.Sort

open Schemes

/-- Why a sort would not come to its end. -/
inductive SortFault where
  /-- an index outside the span, or a cell that holds nothing -/
  | outside
  /-- a loop that did not end in the turns it was given -/
  | unfinished
  deriving DecidableEq

variable {α β : Type}

abbrev SpanM (α : Type) := EStateM SortFault (List α)

def element (span : List α) (i : ℕ) : EStateM SortFault β α :=
  match span[i]? with
  | some x => pure x
  | none => throw .outside

/-- `span.unsafe_get(i)`. -/
def unsafeGet (i : ℕ) : SpanM α α := do element (← get) i

/-- A write to an index of the span. -/
def unsafeWrite (i : ℕ) (x : α) : SpanM α Unit := do
  let span ← get
  if i < span.length then set (span.set i x) else throw .outside

/-- `span.unsafe_swap_elements(i, j)`. -/
def unsafeSwapElements (i j : ℕ) : SpanM α Unit := do
  let x ← unsafeGet i
  let y ← unsafeGet j
  unsafeWrite i y
  unsafeWrite j x

/-- The code runs on `span.unsafe_subspan(offset, length)`. -/
def withinSubspan (offset length : ℕ) (code : SpanM α β) : SpanM α β := do
  let span ← get
  if offset + length ≤ span.length then
    zoom (fun span => (span.drop offset).take length)
      (fun span part => span.take offset ++ part ++ span.drop (offset + length)) code
  else throw .outside

variable (cmpFn : α → α → Bool)

def insertionSortThreshold : ℕ := 32

/-- The inner loop of `_insertion_sort`: greater elements shift to the right; returns where `value` belongs. -/
def shift (value : α) : ℕ → SpanM α ℕ
  | 0 => pure 0
  | j + 1 => do
    let x ← unsafeGet j
    if cmpFn value x then
      unsafeWrite (j + 1) x
      shift value j
    else pure (j + 1)

def insertionSort : SpanM α Unit := do
  let size := (← get).length
  (List.range' 1 (size - 1)).forM fun i => do
    let value ← unsafeGet i
    let j ← shift cmpFn value i
    unsafeWrite j value

def sort2 (offset0 offset1 : ℕ) : SpanM α Unit := do
  let x ← unsafeGet offset0
  let y ← unsafeGet offset1
  if !cmpFn x y then unsafeSwapElements offset0 offset1

def sort3 (offset0 offset1 offset2 : ℕ) : SpanM α Unit := do
  sort2 cmpFn offset0 offset1
  sort2 cmpFn offset1 offset2
  sort2 cmpFn offset0 offset1

/-- `while cond(span[i]): i += 1`, without a bound. -/
def scanUp (cond : α → Bool) (i : ℕ) : SpanM α ℕ := do
  loop .unfinished (fun i => do
    let x ← unsafeGet i
    if cond x then pure (.again (i + 1)) else pure (.done i)) ((← get).length + 1) i

/-- `while left < i and cond(span[i]): i -= 1`. -/
def scanDownTo (left : ℕ) (cond : α → Bool) : ℕ → SpanM α ℕ
  | 0 => pure 0
  | i + 1 => do
    if left < i + 1 then
      let x ← unsafeGet (i + 1)
      if cond x then scanDownTo left cond i else pure (i + 1)
    else pure (i + 1)

/-- `while i < right and cond(span[i]): i += 1`. -/
def scanUpTo (right : ℕ) (cond : α → Bool) (i : ℕ) : SpanM α ℕ :=
  loop .unfinished (fun i => do
    if i < right then
      let x ← unsafeGet i
      if cond x then pure (.again (i + 1)) else pure (.done i)
    else pure (.done i)) (right + 1) i

/-- `while cond(span[i]): i -= 1`, without a bound; below index 0 is outside. -/
def scanDown (cond : α → Bool) : ℕ → SpanM α ℕ
  | 0 => do
    let x ← unsafeGet 0
    if cond x then throw .outside else pure 0
  | i + 1 => do
    let x ← unsafeGet (i + 1)
    if cond x then scanDown cond i else pure (i + 1)

/-- What both partitions do after their scans. -/
def meet (left right : ℕ) : SpanM α (Turn (ℕ × ℕ) ℕ) := do
  if left ≥ right then
    let pivotPos := left - 1
    unsafeSwapElements pivotPos 0
    pure (.done pivotPos)
  else
    unsafeSwapElements left right
    pure (.again (left + 1, right - 1))

/-- A turn of the loop of `_quicksort_partition_right`. -/
def partitionRightTurn : ℕ × ℕ → SpanM α (Turn (ℕ × ℕ) ℕ)
  | (left, right) => do
    let pivotValue ← unsafeGet 0
    let left ← scanUp (fun x => cmpFn x pivotValue) left
    let right ← scanDownTo left (fun x => !cmpFn x pivotValue) right
    meet left right

/-- `_quicksort_partition_right`: what is smaller than the pivot comes to its left. -/
def quicksortPartitionRight : SpanM α ℕ := do
  let size := (← get).length
  loop .unfinished (partitionRightTurn cmpFn) (size + 1) (1, size - 1)

/-- A turn of the loop of `_quicksort_partition_left`. -/
def partitionLeftTurn : ℕ × ℕ → SpanM α (Turn (ℕ × ℕ) ℕ)
  | (left, right) => do
    let pivotValue ← unsafeGet 0
    let left ← scanUpTo right (fun x => !cmpFn pivotValue x) left
    let right ← scanDown (fun x => cmpFn pivotValue x) right
    meet left right

/-- `_quicksort_partition_left`: what is not greater than the pivot comes to its left. -/
def quicksortPartitionLeft : SpanM α ℕ := do
  let size := (← get).length
  loop .unfinished (partitionLeftTurn cmpFn) (size + 1) (1, size - 1)

/-- Whether the element before the interval is not smaller than the first of it; `False` at the start of the span. -/
def pivotRepeats (offset : ℕ) : SpanM α Bool := do
  if offset > 0 then
    let before ← unsafeGet (offset - 1)
    let first ← unsafeGet offset
    pure (!cmpFn before first)
  else pure false

/-- `stack.append` of the part to the right of the pivot, if there is anything to sort. -/
def pushRight (offset len pivot : ℕ) (stack : List (ℕ × ℕ)) : List (ℕ × ℕ) :=
  if len > pivot + 2 then (offset + (pivot + 1), len - pivot - 1) :: stack else stack

/-- The same for the part to the left. -/
def pushLeft (offset pivot : ℕ) (stack : List (ℕ × ℕ)) : List (ℕ × ℕ) :=
  if pivot > 1 then (offset, pivot) :: stack else stack

/-- A turn of `_quicksort`. An interval is its offset and length; the head of `stack` is its last element. -/
def quicksortTurn : List (ℕ × ℕ) → SpanM α (Turn (List (ℕ × ℕ)) Unit)
  | [] => pure (.done ())
  | (offset, len) :: stack => do
    if len < insertionSortThreshold then
      withinSubspan offset len (insertionSort cmpFn)
      pure (.again stack)
    else
      withinSubspan offset len (sort3 cmpFn (len / 2) 0 (len - 1))
      if ← pivotRepeats cmpFn offset then
        let pivot ← withinSubspan offset len (quicksortPartitionLeft cmpFn)
        pure (.again (pushRight offset len pivot stack))
      else
        let pivot ← withinSubspan offset len (quicksortPartitionRight cmpFn)
        pure (.again (pushLeft offset pivot (pushRight offset len pivot stack)))

/-- `_quicksort`, without `do_smallsort`. -/
def quicksort : SpanM α Unit := do
  let size := (← get).length
  if size = 0 then pure ()
  else loop .unfinished (quicksortTurn cmpFn) (size + 1) [(0, size)]

/-- The span and the buffer of `_stable_sort`; a cell of the buffer holds nothing before it is written. -/
structure Buffers (α : Type) where
  span : List α
  temp : List (Option α)

/-- A write to an index of the result of `_merge`. -/
def putResult (k : ℕ) (x : α) : EStateM SortFault (List (Option α)) Unit := do
  let result ← get
  if k < result.length then set (result.set k (some x)) else throw .outside

/-- A turn of the loops of `_merge` over what is left of one span. -/
def moveRestTurn (span : List α) : ℕ × ℕ → EStateM SortFault (List (Option α)) (Turn (ℕ × ℕ) Unit)
  | (i, k) => do
    if i < span.length then
      let x ← element span i
      putResult k x
      pure (.again (i + 1, k + 1))
    else pure (.done ())

def moveRest (span : List α) (i k : ℕ) : EStateM SortFault (List (Option α)) Unit :=
  loop .unfinished (moveRestTurn span) (span.length + 1) (i, k)

/-- A turn of the first loop of `_merge`; it ends with the indices `j` and `k`, or with a `return`. -/
def mergeTurn (span1 span2 : List α) :
    ℕ × ℕ × ℕ → EStateM SortFault (List (Option α)) (Turn (ℕ × ℕ × ℕ) (Option (ℕ × ℕ)))
  | (i, j, k) => do
    if i < span1.length then
      if j = span2.length then
        moveRest span1 i k
        pure (.done none)
      else
        let y ← element span2 j
        let x ← element span1 i
        if cmpFn y x then
          putResult k y
          pure (.again (i, j + 1, k + 1))
        else
          putResult k x
          pure (.again (i + 1, j, k + 1))
    else pure (.done (some (j, k)))

/-- `_merge`; its assertion about the size of the result is the first test. -/
def merge (span1 span2 : List α) : EStateM SortFault (List (Option α)) Unit := do
  if span1.length + span2.length ≤ (← get).length then
    match ← loop .unfinished (mergeTurn cmpFn span1 span2) (span1.length + span2.length + 1) (0, 0, 0) with
    | none => pure ()
    | some (j, k) => moveRest span2 j k
  else throw .outside

/-- `for i in range(n)`: the first `n` cells of the buffer move to the span from `j` on. -/
def moveBack (j n : ℕ) : EStateM SortFault (Buffers α) Unit :=
  (List.range n).forM fun i => do
    match (← get).temp[i]? with
    | some (some x) => zoom Buffers.span (fun b span => { b with span }) (unsafeWrite (j + i) x)
    | _ => throw .outside

/-- A turn of the inner merge loop of `_stable_sort_impl`. -/
def mergePairTurn (mergeSize : ℕ) (j : ℕ) : EStateM SortFault (Buffers α) (Turn ℕ Unit) := do
  let span := (← get).span
  if j + mergeSize < span.length then
    let span1 := (span.drop j).take mergeSize
    let span2 := (span.drop (j + mergeSize)).take (min mergeSize (span.length - (j + mergeSize)))
    zoom Buffers.temp (fun b temp => { b with temp }) (merge cmpFn span1 span2)
    moveBack j (mergeSize + span2.length)
    pure (.again (j + 2 * mergeSize))
  else pure (.done ())

/-- A turn of its outer merge loop. -/
def mergeSizeTurn (mergeSize : ℕ) : EStateM SortFault (Buffers α) (Turn ℕ Unit) := do
  let size := (← get).span.length
  if mergeSize < size then
    loop .unfinished (mergePairTurn cmpFn mergeSize) (size + 1) 0
    pure (.again (mergeSize * 2))
  else pure (.done ())

/-- A turn of its first loop, which sorts runs of the length of the threshold. -/
def runTurn (i : ℕ) : EStateM SortFault (Buffers α) (Turn ℕ Unit) := do
  let size := (← get).span.length
  if i < size then
    zoom Buffers.span (fun b span => { b with span })
      (withinSubspan i (min insertionSortThreshold (size - i)) (insertionSort cmpFn))
    pure (.again (i + insertionSortThreshold))
  else pure (.done ())

def stableSortImpl : EStateM SortFault (Buffers α) Unit := do
  let size := (← get).span.length
  if size ≤ 1 then pure ()
  else
    loop .unfinished (runTurn cmpFn) (size + 1) 0
    loop .unfinished (mergeSizeTurn cmpFn) (size + 1) insertionSortThreshold

/-- `_stable_sort`: the buffer is as long as the span. -/
def stableSort : SpanM α Unit := do
  let size := (← get).length
  zoom (fun span => ⟨span, List.replicate size none⟩) (fun _ b => b.span) (stableSortImpl cmpFn)

/-- `sort`, by `_sort`. -/
def sort (stable : Bool) : SpanM α Unit := do
  let size := (← get).length
  if size < insertionSortThreshold then insertionSort cmpFn
  else if stable then stableSort cmpFn
  else quicksort cmpFn

end MojoProse.Stdlib.Sort
