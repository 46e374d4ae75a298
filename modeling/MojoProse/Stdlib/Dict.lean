import MojoProse.Stdlib.SwissTable

/-! `Dict` (`dict.mojo`): a `SwissTable` and the list of its slot numbers in the order of insertion, where slots that have
    been emptied stay until the list is compacted; and the association list that it stands for. -/

namespace MojoProse.Stdlib

inductive DictError where
  | keyError
  | emptyDict
  deriving DecidableEq

/-- `Dict`. -/
structure Dict (K V : Type) where
  table : SwissTable K V
  order : List Int32

def readAt {α : Type} (count : ℕ) (values : ℕ → α) (index : ℤ) : Except DictFault α :=
  if 0 ≤ index ∧ index < count then pure (values index.toNat) else throw .outOfBounds

namespace Dict

variable {K V : Type}

/-- `__init__()`. -/
def init : Dict K V := { table := .init, order := [] }

/-- `__init__(capacity)`. -/
def initCapacity (capacity : ℤ) : Dict K V := { table := .initCapacity capacity, order := [] }

/-- `__init__(copy)`. -/
def copy (d : Dict K V) : Dict K V := { table := d.table.copy, order := d.order }

def len (d : Dict K V) : ℕ := d.table.len

/-- The slot numbers of `order` whose slot is occupied. -/
def compactOrder (table : SwissTable K V) (order : List Int32) : Except DictFault (List Int32) :=
  order.foldlM (fun newOrder slot => do
    if isOccupied (← table.readCtrl slot.toInt) then pure (newOrder ++ [slot]) else pure newOrder) []

def maybeCompactOrder (d : Dict K V) : Except DictFault (Dict K V) := do
  if d.order.length ≤ 2 * d.table.len then pure d
  else pure { d with order := ← compactOrder d.table d.order }

def rehashInPlace (d : Dict K V) : Except DictFault (Dict K V) := do
  let compacted ← compactOrder d.table d.order
  let (table, slotMap) ← d.table.rehashInPlace
  let order ← compacted.foldlM (fun order slot => do
    pure (order ++ [← readAt table.capacity slotMap slot.toInt])) []
  if order.length = table.len then pure { table, order } else throw .assertion

/-- `slot_map` and `relocated_set` of `_grow_slow`: nothing for a slot that is not in the set. -/
def slotMap (relocations : List (ℕ × ℕ)) : ℕ → Option Int32 :=
  relocations.foldl (fun map relocation => Function.update map relocation.1 (some (Int32.ofNat relocation.2)))
    fun _ => none

/-- A turn of the last loop of `_grow_slow`: the new number of a slot that has been relocated is appended. -/
def relocateTurn (oldCapacity : ℕ) (slotMap : ℕ → Option Int32) (order : List Int32) (oldSlot : Int32) :
    Except DictFault (List Int32) := do
  match ← readAt oldCapacity slotMap oldSlot.toInt with
  | some newSlot => pure (order ++ [newSlot])
  | none => pure order

def growSlow (d : Dict K V) : Except DictFault (Dict K V) := do
  if d.table.capacity = 0 then
    let (table, _) ← d.table.resize initialCapacity
    pure { table, order := [] }
  else if d.table.isSparse then d.rehashInPlace
  else
    let (table, relocations) ← d.table.resize (d.table.capacity * 2)
    let order ← d.order.foldlM (relocateTurn d.table.capacity (slotMap relocations)) []
    if order.length = table.len then pure { table, order } else throw .assertion

def ensureCapacity (d : Dict K V) : Except DictFault (Dict K V) :=
  if d.table.needsResize then d.growSlow else d.maybeCompactOrder

section Operations

/-- The entry of a slot is moved out; the slot is a tombstone. -/
def takeSlot (table : SwissTable K V) (slotIdx : ℕ) : Except DictFault (SwissTable K V × SwissTableEntry K V) := do
  let entry ← table.readSlot slotIdx
  let table ← (table.dropSlot slotIdx).setCtrl slotIdx ctrlDeleted
  pure ({ table with len := table.len - 1 }, entry)

/-- The loop of `popitem`; `i` entries of the order are left. -/
def popitemFrom (d : Dict K V) : ℕ → Except DictFault (Dict K V × Except DictError (SwissTableEntry K V))
  | 0 => pure ({ d with order := [] }, .error .emptyDict)
  | i + 1 => do
    match d.order[i]? with
    | none => throw .outOfBounds
    | some slot =>
      if isOccupied (← d.table.readCtrl slot.toInt) then
        let (table, entry) ← takeSlot d.table slot.toInt.toNat
        pure ({ table, order := d.order.take i }, .ok entry)
      else d.popitemFrom i

def popitem (d : Dict K V) : Except DictFault (Dict K V × Except DictError (SwissTableEntry K V)) :=
  d.popitemFrom d.order.length

variable [BEq K] [Hashable K]

variable (d : Dict K V)

def find (key : K) : Except DictFault (Option V) := do
  let (found, slotIdx) ← d.table.findSlot (hash key) key
  if found then pure (some (← d.table.readSlot slotIdx).value) else pure none

def contains (key : K) : Except DictFault Bool := do
  let (found, _) ← d.table.findSlot (hash key) key
  pure found

/-- What `_place_new_entry` and `setdefault` do with a new entry. -/
def addEntry (slotIdx : ℕ) (entry : SwissTableEntry K V) : Except DictFault (Dict K V) := do
  let table ← d.table.place entry slotIdx
  pure { table := { table with len := table.len + 1, growthLeft := table.growthLeft - 1 },
         order := d.order ++ [Int32.ofNat slotIdx] }

def placeNewEntry (slotIdx : ℕ) (entry : SwissTableEntry K V) : Except DictFault (Dict K V) := do
  let d ← d.addEntry slotIdx entry
  if d.table.growthLeft ≥ 0 then pure d else throw .assertion

/-- `insert`: the entry that had the key before is returned. -/
def insert (key : K) (value : V) : Except DictFault (Dict K V × Option (SwissTableEntry K V)) := do
  let d ← d.ensureCapacity
  let entry : SwissTableEntry K V := { hash := hash key, key, value }
  let (found, slotIdx) ← d.table.findSlot entry.hash entry.key
  if found then
    let displaced ← d.table.readSlot slotIdx
    pure ({ d with table := d.table.writeSlot slotIdx entry }, some displaced)
  else pure (← d.placeNewEntry slotIdx entry, none)

/-- `_insert` of an entry; the one that had the key before is destroyed. -/
def insertEntry (entry : SwissTableEntry K V) : Except DictFault (Dict K V) := do
  let d ← d.ensureCapacity
  let (found, slotIdx) ← d.table.findSlot entry.hash entry.key
  if found then
    let _ ← d.table.readSlot slotIdx
    pure { d with table := d.table.writeSlot slotIdx entry }
  else d.placeNewEntry slotIdx entry

def setitem (key : K) (value : V) : Except DictFault (Dict K V) :=
  d.insertEntry { hash := hash key, key, value }

def setdefault (key : K) (default : V) : Except DictFault (Dict K V × V) := do
  let d ← d.ensureCapacity
  let h := hash key
  let (found, slotIdx) ← d.table.findSlot h key
  if found then
    if isOccupied (← d.table.readCtrl slotIdx) then pure (d, (← d.table.readSlot slotIdx).value) else throw .assertion
  else
    let d ← d.addEntry slotIdx { hash := h, key, value := default }
    pure (d, (← d.table.readSlot slotIdx).value)

/-- What both forms of `pop` do: the value of the key, if it is there. -/
def popValue (d : Dict K V) (key : K) : Except DictFault (Dict K V × Option V) := do
  let (found, slotIdx) ← d.table.findSlot (hash key) key
  if found then
    if isOccupied (← d.table.readCtrl slotIdx) then
      let (table, entry) ← takeSlot d.table slotIdx
      pure ({ d with table }, some entry.value)
    else throw .assertion
  else pure (d, none)

/-- `pop(key)`. -/
def pop (d : Dict K V) (key : K) : Except DictFault (Dict K V × Except DictError V) := do
  match ← d.popValue key with
  | (d, some value) => pure (d, .ok value)
  | (d, none) => pure (d, .error .keyError)

/-- `pop(key, default)`. -/
def popDefault (d : Dict K V) (key : K) (default : V) : Except DictFault (Dict K V × V) := do
  let (d, value) ← d.popValue key
  pure (d, value.getD default)

def clear (d : Dict K V) : Dict K V := { table := d.table.clear, order := [] }

/-- `_DictEntryIter`: the slots that the index has still to pass, in the direction of the iterator. -/
structure DictEntryIter where
  rest : List Int32
  seen : ℕ

/-- The loop of `_DictEntryIter.__next__`. -/
def nextFrom (d : Dict K V) (seen : ℕ) : List Int32 → Except DictFault (Option (SwissTableEntry K V × DictEntryIter))
  | [] => if seen = d.len then pure none else throw .assertion
  | slot :: rest => do
    if isOccupied (← d.table.readCtrl slot.toInt) then
      let entry ← d.table.readSlot slot.toInt
      pure (some (entry, { rest, seen := seen + 1 }))
    else d.nextFrom seen rest

/-- `_DictEntryIter.__next__`; nothing is `StopIteration`. -/
def next (d : Dict K V) (iter : DictEntryIter) : Except DictFault (Option (SwissTableEntry K V × DictEntryIter)) :=
  if iter.seen ≥ d.len then pure none else d.nextFrom iter.seen iter.rest

/-- What a `for` loop over an iterator sees. -/
def entriesFrom (d : Dict K V) : ℕ → DictEntryIter → Except DictFault (List (SwissTableEntry K V))
  | 0, _ => throw .unfinished
  | turns + 1, iter => do
    match ← d.next iter with
    | none => pure []
    | some (entry, iter) => pure (entry :: (← d.entriesFrom turns iter))

def items (d : Dict K V) : Except DictFault (List (SwissTableEntry K V)) :=
  d.entriesFrom (d.order.length + 1) { rest := d.order, seen := 0 }

/-- The entries in the order of `__reversed__`. -/
def reversed (d : Dict K V) : Except DictFault (List (SwissTableEntry K V)) :=
  d.entriesFrom (d.order.length + 1) { rest := d.order.reverse, seen := 0 }

/-- `update`: the entries of the other dictionary with the hashes that they have there. -/
def update (d other : Dict K V) : Except DictFault (Dict K V) := do
  (← other.items).foldlM insertEntry d

end Operations

end Dict

namespace OrderedMap

variable {K V : Type} [BEq K]

def find (l : List (K × V)) (key : K) : Option (K × V) := l.find? fun entry => entry.1 == key

variable (l : List (K × V)) (key : K)

/-- A new key comes at the end; the entry of a key that is there is replaced where it is. -/
def insert (value : V) : List (K × V) :=
  if (find l key).isSome then l.map fun entry => if entry.1 == key then (key, value) else entry
  else l ++ [(key, value)]

def setdefault (default : V) : List (K × V) :=
  if (find l key).isSome then l else l ++ [(key, default)]

def erase : List (K × V) := l.filter fun entry => !(entry.1 == key)

def update (l other : List (K × V)) : List (K × V) := other.foldl (fun l entry => insert l entry.1 entry.2) l

end OrderedMap

/-- Dictionaries are named by numbers. The one that is updated from is another one, as the compiler demands. -/
inductive DictOp (K V : Type) where
  | insert (i : ℕ) (key : K) (value : V)
  | setitem (i : ℕ) (key : K) (value : V)
  | setdefault (i : ℕ) (key : K) (default : V)
  | find (i : ℕ) (key : K)
  | contains (i : ℕ) (key : K)
  | pop (i : ℕ) (key : K)
  | popDefault (i : ℕ) (key : K) (default : V)
  | popitem (i : ℕ)
  | update (i other : ℕ) (distinct : i ≠ other)
  | clear (i : ℕ)
  | copy (i source : ℕ)
  | len (i : ℕ)
  | items (i : ℕ)
  | reversed (i : ℕ)

inductive DictOutcome (K V : Type) where
  | nothing
  | raised (error : DictError)
  | entry (entry : Option (K × V))
  | value (value : Option V)
  | bool (b : Bool)
  | length (n : ℕ)
  | entries (entries : List (K × V))
  deriving DecidableEq

namespace Dict

variable {K V : Type} [BEq K] [Hashable K]

def pair (entry : SwissTableEntry K V) : K × V := (entry.key, entry.value)

def step (dicts : ℕ → Dict K V) : DictOp K V → Except DictFault ((ℕ → Dict K V) × DictOutcome K V)
  | .insert i key value => do
    let (d, displaced) ← (dicts i).insert key value
    pure (Function.update dicts i d, .entry (displaced.map pair))
  | .setitem i key value => do
    let d ← (dicts i).setitem key value
    pure (Function.update dicts i d, .nothing)
  | .setdefault i key default => do
    let (d, value) ← (dicts i).setdefault key default
    pure (Function.update dicts i d, .value (some value))
  | .find i key => do
    let value ← (dicts i).find key
    pure (dicts, .value value)
  | .contains i key => do
    let found ← (dicts i).contains key
    pure (dicts, .bool found)
  | .pop i key => do
    match ← (dicts i).pop key with
    | (d, .ok value) => pure (Function.update dicts i d, .value (some value))
    | (d, .error error) => pure (Function.update dicts i d, .raised error)
  | .popDefault i key default => do
    let (d, value) ← (dicts i).popDefault key default
    pure (Function.update dicts i d, .value (some value))
  | .popitem i => do
    match ← (dicts i).popitem with
    | (d, .ok entry) => pure (Function.update dicts i d, .entry (some (pair entry)))
    | (d, .error error) => pure (Function.update dicts i d, .raised error)
  | .update i other _ => do
    let d ← (dicts i).update (dicts other)
    pure (Function.update dicts i d, .nothing)
  | .clear i => pure (Function.update dicts i (dicts i).clear, .nothing)
  | .copy i source => pure (Function.update dicts i (dicts source).copy, .nothing)
  | .len i => pure (dicts, .length (dicts i).len)
  | .items i => do
    let entries ← (dicts i).items
    pure (dicts, .entries (entries.map pair))
  | .reversed i => do
    let entries ← (dicts i).reversed
    pure (dicts, .entries (entries.map pair))

def run (dicts : ℕ → Dict K V) : List (DictOp K V) → Except DictFault ((ℕ → Dict K V) × List (DictOutcome K V))
  | [] => pure (dicts, [])
  | op :: ops => do
    let (dicts, outcome) ← step dicts op
    let (dicts, outcomes) ← run dicts ops
    pure (dicts, outcome :: outcomes)

def start (capacities : ℕ → Option ℤ) (i : ℕ) : Dict K V :=
  match capacities i with
  | none => init
  | some capacity => initCapacity capacity

end Dict

namespace OrderedMap

variable {K V : Type} [BEq K]

def step (maps : ℕ → List (K × V)) : DictOp K V → (ℕ → List (K × V)) × DictOutcome K V
  | .insert i key value => (Function.update maps i (insert (maps i) key value), .entry (find (maps i) key))
  | .setitem i key value => (Function.update maps i (insert (maps i) key value), .nothing)
  | .setdefault i key default =>
    (Function.update maps i (setdefault (maps i) key default),
      .value (some (((find (maps i) key).map Prod.snd).getD default)))
  | .find i key => (maps, .value ((find (maps i) key).map Prod.snd))
  | .contains i key => (maps, .bool (find (maps i) key).isSome)
  | .pop i key =>
    match find (maps i) key with
    | some entry => (Function.update maps i (erase (maps i) key), .value (some entry.2))
    | none => (maps, .raised .keyError)
  | .popDefault i key default =>
    (Function.update maps i (erase (maps i) key), .value (some (((find (maps i) key).map Prod.snd).getD default)))
  | .popitem i =>
    match (maps i).getLast? with
    | some entry => (Function.update maps i (maps i).dropLast, .entry (some entry))
    | none => (maps, .raised .emptyDict)
  | .update i other _ => (Function.update maps i (update (maps i) (maps other)), .nothing)
  | .clear i => (Function.update maps i [], .nothing)
  | .copy i source => (Function.update maps i (maps source), .nothing)
  | .len i => (maps, .length (maps i).length)
  | .items i => (maps, .entries (maps i))
  | .reversed i => (maps, .entries (maps i).reverse)

def run (maps : ℕ → List (K × V)) : List (DictOp K V) → (ℕ → List (K × V)) × List (DictOutcome K V)
  | [] => (maps, [])
  | op :: ops =>
    let (maps, outcome) := step maps op
    let (maps, outcomes) := run maps ops
    (maps, outcome :: outcomes)

end OrderedMap

end MojoProse.Stdlib
