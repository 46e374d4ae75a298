import MojoProse.Schemes.Probing
import MojoProse.Stdlib.Deque

/-! `SwissTable` (`_swisstable.mojo`): control bytes that are probed in groups of sixteen, and the slots of the entries.
    Memory is a function of the index; an access outside of the allocated size, or to a slot that holds nothing, is a
    fault. A mask of sixteen bits is the list of its set bits, the lowest first. -/

namespace MojoProse.Stdlib
open Function

inductive DictFault where
  | outOfBounds
  | uninitialised
  | assertion
  /-- a loop that did not end in the turns it was given -/
  | unfinished
  deriving DecidableEq

def ctrlEmpty : UInt8 := 0xFF
def ctrlDeleted : UInt8 := 0x80
def groupWidth : ℕ := 16
def initialCapacity : ℕ := 16

/-- `h2`: the top 7 bits of the hash. -/
def h2 (hash : UInt64) : UInt8 := (hash >>> 57).toUInt8

def isOccupied (ctrl : UInt8) : Bool := ctrl < ctrlDeleted

/-- `Group`: the control bytes from a place on. -/
abbrev Group := ℕ → UInt8

namespace Group

/-- The bits of a mask whose bytes meet a condition. -/
def mask (cond : UInt8 → Bool) (group : Group) : List ℕ := (List.range groupWidth).filter fun bit => cond (group bit)

def matchH2 (group : Group) (h2Val : UInt8) : List ℕ := group.mask (· == h2Val)

def matchEmpty (group : Group) : List ℕ := group.mask (· == ctrlEmpty)

def matchEmptyOrDeleted (group : Group) : List ℕ := group.mask (· ≥ ctrlDeleted)

def convertSpecialToEmptyAndFullToDeleted (group : Group) : Group := fun bit =>
  if group bit < ctrlDeleted then ctrlDeleted else ctrlEmpty

end Group

/-- `SwissTableEntry`. -/
structure SwissTableEntry (K V : Type) where
  hash : UInt64
  key : K
  value : V
  deriving DecidableEq

/-- `SwissTable`. -/
structure SwissTable (K V : Type) where
  ctrl : ℕ → UInt8
  slots : ℕ → Option (SwissTableEntry K V)
  len : ℕ
  capacity : ℕ
  growthLeft : ℤ

namespace SwissTable

variable {K V : Type}

/-- `__init__()`: nothing is allocated. -/
def init : SwissTable K V :=
  { ctrl := fun _ => ctrlEmpty, slots := fun _ => none, len := 0, capacity := 0, growthLeft := 0 }

/-- A table of `capacity` slots that holds nothing. -/
def allocated (capacity len : ℕ) : SwissTable K V :=
  { ctrl := fun _ => ctrlEmpty, slots := fun _ => none, len, capacity, growthLeft := capacity * 7 / 8 - len }

/-- `__init__(capacity)`. The product is one of 64-bit integers. -/
def initCapacity (capacity : ℤ) : SwissTable K V :=
  if capacity = 0 then init
  else
    let product := (capacity * 8).bmod (2 ^ 64)
    allocated (max (nextPowerOfTwo (-(-product / 7)).toNat) initialCapacity) 0

variable (t : SwissTable K V)

/-- `__init__(copy)`: only occupied slots are copied. -/
def copy : SwissTable K V :=
  if t.capacity = 0 then init
  else { t with slots := fun i => if i < t.capacity ∧ isOccupied (t.ctrl i) then t.slots i else none }

def readCtrl (index : ℤ) : Except DictFault UInt8 :=
  if 0 ≤ index ∧ index < t.capacity + groupWidth then pure (t.ctrl index.toNat) else throw .outOfBounds

def readSlot (index : ℤ) : Except DictFault (SwissTableEntry K V) :=
  if 0 ≤ index ∧ index < t.capacity then
    match t.slots index.toNat with
    | some entry => pure entry
    | none => throw .uninitialised
  else throw .outOfBounds

/-- `Group(self._ctrl.unsafe_offset(pos))`. -/
def group (pos : ℕ) : Except DictFault Group :=
  if pos ≤ t.capacity then pure fun bit => t.ctrl (pos + bit) else throw .outOfBounds

def setCtrl (index : ℕ) (value : UInt8) : Except DictFault (SwissTable K V) :=
  if index < t.capacity then
    let ctrl := update t.ctrl index value
    pure { t with ctrl := if index < groupWidth then update ctrl (t.capacity + index) value else ctrl }
  else throw .assertion

/-- An entry is moved into a slot. -/
def writeSlot (index : ℕ) (entry : SwissTableEntry K V) : SwissTable K V :=
  { t with slots := update t.slots index (some entry) }

def dropSlot (index : ℕ) : SwissTable K V :=
  { t with slots := update t.slots index none }

section Find

variable [BEq K]

/-- The inner loop of `find_slot_matching`. -/
def matchKey (t : SwissTable K V) (hash : UInt64) (key : K) (pos : ℕ) : List ℕ → Except DictFault (Option ℕ)
  | [] => pure none
  | bit :: matchMask => do
    let slotIdx := (pos + bit) &&& (t.capacity - 1)
    let entry ← t.readSlot slotIdx
    if entry.hash == hash && entry.key == key then pure (some slotIdx) else t.matchKey hash key pos matchMask

/-- The loop of `find_slot_matching`. -/
def findSlotFrom (t : SwissTable K V) (hash : UInt64) (key : K) : ℕ → ℕ → Except DictFault (Bool × ℕ)
  | 0, _ => throw .unfinished
  | turns + 1, pos => do
    let group ← t.group pos
    match ← t.matchKey hash key pos (group.matchH2 (h2 hash)) with
    | some slotIdx => pure (true, slotIdx)
    | none =>
      match group.matchEmpty with
      | bit :: _ => pure (false, (pos + bit) &&& (t.capacity - 1))
      | [] => t.findSlotFrom hash key turns ((pos + groupWidth) &&& (t.capacity - 1))

/-- `find_slot`: the slot of the key, or the first empty one. -/
def findSlot (t : SwissTable K V) (hash : UInt64) (key : K) : Except DictFault (Bool × ℕ) :=
  if t.capacity = 0 then pure (false, 0)
  else t.findSlotFrom hash key (t.capacity / groupWidth) (hash.toNat &&& (t.capacity - 1))

end Find

/-- The loop of `find_empty_slot`. -/
def findEmptySlotFrom (t : SwissTable K V) : ℕ → ℕ → Except DictFault ℕ
  | 0, _ => throw .unfinished
  | turns + 1, pos => do
    let group ← t.group pos
    match group.matchEmptyOrDeleted with
    | bit :: _ => pure ((pos + bit) &&& (t.capacity - 1))
    | [] => t.findEmptySlotFrom turns ((pos + groupWidth) &&& (t.capacity - 1))

section
variable (t : SwissTable K V)

def findEmptySlot (hash : UInt64) : Except DictFault ℕ :=
  t.findEmptySlotFrom (t.capacity / groupWidth) (hash.toNat &&& (t.capacity - 1))

def clear : SwissTable K V := if t.capacity = 0 then t else allocated t.capacity 0

def needsResize : Bool := t.growthLeft ≤ 0

def isSparse : Bool := t.len ≤ t.capacity * 7 / 16

/-- An entry goes to the first slot of its probe sequence that is free. -/
def place (entry : SwissTableEntry K V) (target : ℕ) : Except DictFault (SwissTable K V) := do
  let t ← t.setCtrl target (h2 entry.hash)
  pure (t.writeSlot target entry)

end

/-- A turn of the loop of `resize`. -/
def resizeTurn (old : SwissTable K V) (state : SwissTable K V × List (ℕ × ℕ)) (i : ℕ) :
    Except DictFault (SwissTable K V × List (ℕ × ℕ)) := do
  let (t, relocations) := state
  if isOccupied (old.ctrl i) then
    let entry ← old.readSlot i
    let newSlot ← t.findEmptySlot entry.hash
    let t ← t.place entry newSlot
    pure (t, relocations ++ [(i, newSlot)])
  else pure (t, relocations)

/-- `resize`: the table and the pairs of an old and a new slot. -/
def resize (t : SwissTable K V) (newCapacity : ℕ) : Except DictFault (SwissTable K V × List (ℕ × ℕ)) :=
  (List.range t.capacity).foldlM (resizeTurn t) (allocated newCapacity t.len, [])

/-- The first loop of `rehash_in_place` and the refresh of the mirror. -/
def markAll (t : SwissTable K V) : SwissTable K V :=
  let ctrl := (List.range (t.capacity / groupWidth)).foldl (fun (ctrl : ℕ → UInt8) (g : ℕ) i =>
    if groupWidth * g ≤ i ∧ i < groupWidth * g + groupWidth then
      Group.convertSpecialToEmptyAndFullToDeleted (fun bit => ctrl (groupWidth * g + bit)) (i - groupWidth * g)
    else ctrl i) t.ctrl
  { t with ctrl := fun i => if t.capacity ≤ i ∧ i < t.capacity + groupWidth then ctrl (i - t.capacity) else ctrl i }

/-- The inner loop of `rehash_in_place`: the entry in hand goes to its slot; an unmoved entry there is the next in hand.
    -/
def settle : ℕ → SwissTable K V × (ℕ → Int32) → SwissTableEntry K V → ℕ →
    Except DictFault (SwissTable K V × (ℕ → Int32))
  | 0, _, _, _ => throw .unfinished
  | turns + 1, (t, slotMap), entry, source => do
    let target ← t.findEmptySlot entry.hash
    let slotMap := update slotMap source (Int32.ofNat target)
    if t.ctrl target = ctrlDeleted then
      let displaced ← t.readSlot target
      let t ← t.place entry target
      settle turns (t, slotMap) displaced target
    else
      let t ← t.place entry target
      pure (t, slotMap)

/-- A turn of the outer loop of `rehash_in_place`. -/
def rehashTurn (state : SwissTable K V × (ℕ → Int32)) (i : ℕ) : Except DictFault (SwissTable K V × (ℕ → Int32)) := do
  let (t, slotMap) := state
  if t.ctrl i ≠ ctrlDeleted then pure (t, slotMap)
  else
    let entry ← t.readSlot i
    let t ← (t.dropSlot i).setCtrl i ctrlEmpty
    settle (t.capacity + 1) (t, slotMap) entry i

/-- `rehash_in_place`: the table, and where the entry of each slot is now. -/
def rehashInPlace (t : SwissTable K V) : Except DictFault (SwissTable K V × (ℕ → Int32)) := do
  if t.len ≤ t.capacity * 7 / 16 then
    let (t, slotMap) ← (List.range t.capacity).foldlM rehashTurn (t.markAll, fun i => Int32.ofNat i)
    pure ({ t with growthLeft := t.capacity * 7 / 8 - t.len }, slotMap)
  else throw .assertion

end SwissTable

end MojoProse.Stdlib
