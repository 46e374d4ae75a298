import Mathlib.Data.Finset.Max
import Mathlib.Tactic.Common
import MojoProse.Schemes.Dict

/-! The LoRA adapters of a server: `LoRAManagerV3` (`modulev3.py`) over the slots of `_LoRALRUCache` (`lora.py`).

    The adapter buffers of a batch are cached under the slots and names of its adapters. -/

namespace MojoProse.Pipelines

open Schemes Dict List

variable {A D : Type}

structure LoRAModel (A : Type) where
  name : String
  path : String
  weights : A

/-- `_LoRALRUCache`; the cache is in order of use, the least recently used first. -/
structure LoRALRUCache (A : Type) where
  cache : Dict String (LoRAModel A × ℕ)
  maxSize : ℕ
  freeSlots : Finset ℕ
  nameToSlot : Dict String ℕ

namespace LoRALRUCache

def new (maxSize : ℕ) : LoRALRUCache A := ⟨.empty, maxSize, Finset.range maxSize, .empty⟩

def nextSlot (c : LoRALRUCache A) : Option ℕ :=
  if h : c.freeSlots.Nonempty then some (c.freeSlots.min' h) else none

variable (c : LoRALRUCache A) (key : String)

/-- The last statements of `put`. -/
def assign (value : LoRAModel A) (slot : ℕ) : LoRALRUCache A :=
  { c with
    cache := c.cache.insert key (value, slot)
    nameToSlot := c.nameToSlot.insert key slot
    freeSlots := c.freeSlots.erase slot }

/-- `remove`, of a key whose slot is `slot`. -/
def release (slot : ℕ) : LoRALRUCache A :=
  { c with
    cache := c.cache.erase key
    nameToSlot := c.nameToSlot.erase key
    freeSlots := insert slot c.freeSlots }

/-- `put(key, value)`; `none` where `popitem` finds the cache empty. -/
def put (value : LoRAModel A) : Option (LoRALRUCache A) :=
  match c.cache.get? key with
  | some entry => some { c with cache := (c.cache.erase key).insert key entry }
  | none =>
    match c.nextSlot with
    | some slot => some (c.assign key value slot)
    | none =>
      if c.maxSize ≤ c.cache.entries.length then
        match c.cache.entries with
        | [] => none
        | (evicted, _, freed) :: _ => some ((c.release evicted freed).assign key value freed)
      else some c

def remove : LoRALRUCache A :=
  match c.cache.get? key with
  | some (_, slot) => c.release key slot
  | none => c

/-- Every entry has its slot to itself. -/
structure Inv (c : LoRALRUCache A) : Prop where
  slot_of_entry : ∀ {key model slot}, c.cache.get? key = some (model, slot) → c.nameToSlot.get? key = some slot
  injective : ∀ {key key' slot}, c.nameToSlot.get? key = some slot → c.nameToSlot.get? key' = some slot → key = key'
  not_free : ∀ {key slot}, c.nameToSlot.get? key = some slot → slot ∉ c.freeSlots

theorem Inv.new (maxSize : ℕ) : (LoRALRUCache.new maxSize : LoRALRUCache A).Inv :=
  ⟨by simp [LoRALRUCache.new], by simp [LoRALRUCache.new], by simp [LoRALRUCache.new]⟩

variable {c c' : LoRALRUCache A} {key : String} {slot : ℕ}

theorem Inv.assign (h : c.Inv) (value : LoRAModel A) (hslot : ∀ key', c.nameToSlot.get? key' ≠ some slot) :
    (c.assign key value slot).Inv where
  slot_of_entry := by
    simp only [LoRALRUCache.assign, get?_insert, Prod.mk.injEq]
    rintro k m s (⟨rfl, rfl, rfl⟩ | ⟨hne, hk⟩)
    · exact .inl ⟨rfl, rfl⟩
    · exact .inr ⟨hne, h.slot_of_entry hk⟩
  injective := by
    simp only [LoRALRUCache.assign, get?_insert]
    rintro k k' s (⟨rfl, rfl⟩ | ⟨-, hk⟩) (⟨rfl, hs⟩ | ⟨-, hk'⟩)
    · rfl
    · exact absurd hk' (hslot k')
    · exact absurd hk (hs ▸ hslot k)
    · exact h.injective hk hk'
  not_free := by
    simp only [LoRALRUCache.assign, get?_insert, Finset.mem_erase, not_and_or, not_not]
    rintro k s (⟨rfl, rfl⟩ | ⟨-, hk⟩)
    · exact .inl rfl
    · exact .inr (h.not_free hk)

theorem Inv.release (h : c.Inv) (hkey : c.nameToSlot.get? key = some slot) : (c.release key slot).Inv where
  slot_of_entry := by
    simp only [LoRALRUCache.release, get?_erase]
    exact fun hk => ⟨h.slot_of_entry hk.1, hk.2⟩
  injective := by
    simp only [LoRALRUCache.release, get?_erase]
    exact fun hk hk' => h.injective hk.1 hk'.1
  not_free := by
    simp only [LoRALRUCache.release, get?_erase, Finset.mem_insert, not_or]
    exact fun hk => ⟨fun hs => hk.2 (h.injective hk.1 (hs ▸ hkey)), h.not_free hk.1⟩

theorem Inv.put (h : c.Inv) {value : LoRAModel A} (hput : c.put key value = some c') : c'.Inv := by
  rw [LoRALRUCache.put] at hput
  split at hput
  · rename_i entry hent
    cases hput
    refine ⟨fun {k m s} hk => ?_, h.injective, h.not_free⟩
    simp only [get?_insert, get?_erase] at hk
    rcases hk with ⟨rfl, rfl⟩ | ⟨-, hk, -⟩
    · exact h.slot_of_entry hent
    · exact h.slot_of_entry hk
  split at hput
  · rename_i slot hslot
    cases hput
    simp only [nextSlot, Option.dite_none_right_eq_some, Option.some.injEq] at hslot
    obtain ⟨hfree, rfl⟩ := hslot
    exact h.assign value fun k hk => h.not_free hk (Finset.min'_mem _ hfree)
  split_ifs at hput
  · split at hput
    · cases hput
    · rename_i evicted model freed rest hents
      cases hput
      have hent : c.cache.get? evicted = some (model, freed) := get?_eq_some_iff.mpr (by simp [hents])
      have hevicted := h.slot_of_entry hent
      refine (h.release hevicted).assign value fun k hk => ?_
      simp only [LoRALRUCache.release, get?_erase] at hk
      exact hk.2 (h.injective hk.1 hevicted)
  · cases hput
    exact h

theorem Inv.remove (h : c.Inv) : (c.remove key).Inv := by
  rw [LoRALRUCache.remove]
  split
  · rename_i hk
    exact h.release (h.slot_of_entry hk)
  · exact h

end LoRALRUCache

/-- The base model, and what is stored where: `readAdapter` gives `none` for an invalid adapter. -/
structure LoRASetup (A : Type) where
  baseModelPath : String
  maxNumLoras : ℕ
  resolveAdapterPath : String → Option String
  readAdapter : String → Option A

inductive LoRAStatus where
  | success | loadNameExists | unloadNameNonexistent | loadInvalidPath | loadInvalidAdapter
  deriving DecidableEq

/-- `LoRAManagerV3`. A buffer has the weights of an adapter, or zeros (`none`), in each slot. -/
structure LoRAManagerV3 (A D : Type) where
  loras : Dict String (LoRAModel A)
  activeLoras : LoRALRUCache A
  bufferCache : Option (List (ℕ × String) × D × (ℕ → Option A))

namespace LoRAManagerV3

/-- The name and the path in `name=path` or `path`. -/
def partition (spec : String) : String × String :=
  let explicit := String.ofList ((spec.toList.dropWhile (· ≠ '=')).drop 1)
  if explicit = "" then (spec, spec) else (String.ofList (spec.toList.takeWhile (· ≠ '=')), explicit)

def loadAdapter (env : LoRASetup A) (s : LoRAManagerV3 A D) (spec : String) : LoRAStatus × LoRAManagerV3 A D :=
  let name := (partition spec).1
  let path := (partition spec).2
  match s.loras.get? name with
  | some model => (if model.path = path then .success else .loadNameExists, s)
  | none =>
    match env.resolveAdapterPath path with
    | none => (.loadInvalidPath, s)
    | some localPath =>
      match env.readAdapter localPath with
      | none => (.loadInvalidAdapter, s)
      | some weights => (.success, { s with loras := s.loras.insert name ⟨name, localPath, weights⟩ })

theorem loadAdapter_cases (env : LoRASetup A) (s : LoRAManagerV3 A D) (spec : String) : (s.loadAdapter env spec).2 = s ∨
    ∃ path w, env.resolveAdapterPath (partition spec).2 = some path ∧ env.readAdapter path = some w ∧
      s.loadAdapter env spec =
        (.success, { s with loras := s.loras.insert (partition spec).1 ⟨(partition spec).1, path, w⟩ }) := by
  rw [loadAdapter]
  split
  · exact .inl rfl
  split
  · exact .inl rfl
  · rename_i path hpath
    split
    · exact .inl rfl
    · rename_i w hread
      exact .inr ⟨path, w, hpath, hread, rfl⟩

def unloadAdapter (s : LoRAManagerV3 A D) (name : String) : LoRAStatus × LoRAManagerV3 A D :=
  match s.loras.get? name with
  | none => (.unloadNameNonexistent, s)
  | some _ => (.success, { s with loras := s.loras.erase name, activeLoras := s.activeLoras.remove name })

/-- `activate_adapter`; `none` where it raises `KeyError`. -/
def activateAdapter (s : LoRAManagerV3 A D) (name : String) : Option (LoRAManagerV3 A D) := do
  let model ← s.loras.get? name
  let activeLoras ← s.activeLoras.put name model
  return { s with activeLoras }

def servesBase (env : LoRASetup A) (name : String) : Prop := name = "" ∨ name = env.baseModelPath

instance (env : LoRASetup A) (name : String) : Decidable (servesBase env name) :=
  inferInstanceAs (Decidable (_ ∨ _))

variable (env : LoRASetup A) (s : LoRAManagerV3 A D)

/-- `_model_name_to_id`; `none` is `_NO_ACTIVE_LORA`. -/
def modelNameToId (name : Option String) : Option ℕ := do
  let name ← name
  if servesBase env name ∨ s.loras.get? name = none then none else s.activeLoras.nameToSlot.get? name

/-- `sort_lora_batch`: by slot, the highest first and the base model last. -/
def sortLoraBatch (batch : List (Option String)) : List (Option String) :=
  batch.mergeSort fun a b => (s.modelNameToId env b).elim 0 (· + 1) ≤ (s.modelNameToId env a).elim 0 (· + 1)

def activeAdaptersBySlot (batch : List (Option String)) :
    Dict ℕ (LoRAModel A) :=
  batch.foldl (fun bySlot name =>
    match s.modelNameToId env name, name.bind s.loras.get? with
    | some slot, some model => bySlot.insert slot model
    | _, _ => bySlot) .empty

section
variable {env : LoRASetup A} {s : LoRAManagerV3 A D} {batch : List (Option String)} {slot : ℕ}

theorem exists_of_activeAdapters {model : LoRAModel A} (h : (s.activeAdaptersBySlot env batch).get? slot = some model) :
    ∃ name, s.modelNameToId env (some name) = some slot ∧ s.loras.get? name = some model := by
  rw [activeAdaptersBySlot] at h
  induction batch using reverseRecOn with
  | nil => simp at h
  | append_singleton batch name ih =>
    rw [foldl_append, foldl_cons, foldl_nil] at h
    split at h
    · rename_i hid hmodel
      rcases get?_insert.mp h with ⟨rfl, rfl⟩ | ⟨-, h⟩
      · obtain ⟨name, rfl, hmodel⟩ := Option.bind_eq_some_iff.mp hmodel
        exact ⟨name, hid, hmodel⟩
      · exact ih h
    · exact ih h

theorem slot_of_modelNameToId {name : String} (h : s.modelNameToId env (some name) = some slot) :
    s.activeLoras.nameToSlot.get? name = some slot ∧ ∃ model, s.loras.get? name = some model := by
  simp only [modelNameToId, Option.bind_eq_bind, Option.bind_some] at h
  split_ifs at h with hbase
  exact ⟨h, Option.ne_none_iff_exists'.mp fun hnone => hbase (.inr hnone)⟩

/-- And every routed request finds its adapter there, since no two names share a slot. -/
theorem activeAdapters_of_mem (hslots : s.activeLoras.Inv)
    {name : String} {model : LoRAModel A} (hmem : some name ∈ batch)
    (hid : s.modelNameToId env (some name) = some slot) (hmodel : s.loras.get? name = some model) :
    (s.activeAdaptersBySlot env batch).get? slot = some model := by
  rw [activeAdaptersBySlot]
  induction batch using reverseRecOn with
  | nil => simp at hmem
  | append_singleton batch last ih =>
    rw [foldl_append, foldl_cons, foldl_nil]
    rcases eq_or_ne last (some name) with rfl | hne
    · simp [hid, hmodel, get?_insert_self]
    · have hbatch : some name ∈ batch := by simpa [hne.symm] using hmem
      split
      · rename_i slot' model' hid' hmodel'
        obtain ⟨name', rfl, -⟩ := Option.bind_eq_some_iff.mp hmodel'
        have hother : slot ≠ slot' := fun h => hne (congrArg some (hslots.injective
          (slot_of_modelNameToId hid').1 (h ▸ (slot_of_modelNameToId hid).1)))
        rw [get?_insert_of_ne hother]
        exact ih hbatch
      · exact ih hbatch

end

def adapterSignature (adapters : Dict ℕ (LoRAModel A)) : List (ℕ × String) :=
  (adapters.entries.map fun e => (e.1, e.2.name)).mergeSort fun a b => a.1 < b.1 ∨ a.1 = b.1 ∧ a.2 ≤ b.2

def packAdapterBuffers (adapters : Dict ℕ (LoRAModel A)) (slot : ℕ) : Option A :=
  (adapters.get? slot).map LoRAModel.weights

variable [DecidableEq D]

def adapterBuffers (s : LoRAManagerV3 A D) (adapters : Dict ℕ (LoRAModel A)) (device : D) :
    (ℕ → Option A) × LoRAManagerV3 A D :=
  let packed := packAdapterBuffers adapters
  let miss := (packed, { s with bufferCache := some (adapterSignature adapters, device, packed) })
  match s.bufferCache with
  | some (signature, device', buffers) =>
    if signature = adapterSignature adapters ∧ device' = device then (buffers, s) else miss
  | none => miss

/-- `input_buffers`: the adapter buffers, or `none` where the routing raises for an unknown name. -/
def inputBuffers (env : LoRASetup A) (s : LoRAManagerV3 A D) (batch : List (Option String)) (device : D) :
    Option (ℕ → Option A) × LoRAManagerV3 A D :=
  let adapters := s.activeAdaptersBySlot env batch
  let (buffers, s') := s.adapterBuffers adapters device
  if adapters.entries ≠ [] ∧ ∃ name ∈ batch.reduceOption, ¬servesBase env name ∧ s.loras.get? name = none then
    (none, s')
  else (some buffers, s')

end LoRAManagerV3

inductive LoRAOp (D : Type) where
  | load (spec : String)
  | unload (name : String)
  | activate (name : String)
  | sortBatch (batch : List (Option String))
  | inputBuffers (batch : List (Option String)) (device : D)

/-- The manager, and the adapter that was last loaded under each name. -/
structure LoRASession (A D : Type) where
  manager : LoRAManagerV3 A D
  latest : String → Option A

namespace LoRASession

open LoRAManagerV3

variable [DecidableEq D]

def step (env : LoRASetup A) (s : LoRASession A D) : LoRAOp D → LoRASession A D
  | .load spec =>
    let name := (partition spec).1
    let (status, manager) := s.manager.loadAdapter env spec
    ⟨manager, if status = .success then
      Function.update s.latest name ((manager.loras.get? name).map LoRAModel.weights) else s.latest⟩
  | .unload name => { s with manager := (s.manager.unloadAdapter name).2 }
  | .activate name => { s with manager := (s.manager.activateAdapter name).getD s.manager }
  | .sortBatch _ => s
  | .inputBuffers batch device => { s with manager := (s.manager.inputBuffers env batch device).2 }

def run (env : LoRASetup A) (ops : List (LoRAOp D)) : LoRASession A D :=
  ops.foldl (step env) ⟨⟨.empty, .new env.maxNumLoras, none⟩, fun _ => none⟩

def Names (f : String → A) (signature : List (ℕ × String)) (buffers : ℕ → Option A) : Prop :=
  ∀ slot w, buffers slot = some w ↔ ∃ name, (slot, name) ∈ signature ∧ w = f name

/-- What holds in a run where the adapter of every name is `f name`. -/
structure Inv (f : String → A) (s : LoRASession A D) : Prop where
  slots : s.manager.activeLoras.Inv
  named : ∀ {name model}, s.manager.loras.get? name = some model →
    model.name = name ∧ model.weights = f name ∧ s.latest name = some (f name)
  cached : ∀ {signature device buffers},
    s.manager.bufferCache = some (signature, device, buffers) → Names f signature buffers

variable {env : LoRASetup A} {f : String → A} {s : LoRASession A D}

theorem names_pack {adapters : Dict ℕ (LoRAModel A)}
    (h : ∀ {slot model}, adapters.get? slot = some model → model.weights = f model.name) :
    Names f (adapterSignature adapters) (packAdapterBuffers adapters) := by
  intro slot w
  simp only [packAdapterBuffers, Option.map_eq_some_iff, adapterSignature, mem_mergeSort, mem_map,
    Prod.mk.injEq, Prod.exists, ← get?_eq_some_iff]
  constructor
  · rintro ⟨model, hmodel, rfl⟩
    exact ⟨model.name, ⟨slot, model, hmodel, rfl, rfl⟩, h hmodel⟩
  · rintro ⟨name, ⟨_, model, hmodel, rfl, rfl⟩, rfl⟩
    exact ⟨model, hmodel, h hmodel⟩

theorem Inv.adapterBuffers (env : LoRASetup A) (h : Inv f s) (batch : List (Option String)) (device : D) :
    let adapters := s.manager.activeAdaptersBySlot env batch
    Names f (adapterSignature adapters) (s.manager.adapterBuffers adapters device).1 ∧
      Inv f { s with manager := (s.manager.adapterBuffers adapters device).2 } := by
  intro adapters
  have hpacked : Names f (adapterSignature adapters) (packAdapterBuffers adapters) := names_pack fun hmodel => by
    obtain ⟨name, -, hname⟩ := exists_of_activeAdapters hmodel
    obtain ⟨rfl, hweights, -⟩ := h.named hname
    exact hweights
  have hmiss : Inv f { s with manager :=
      { s.manager with bufferCache := some (adapterSignature adapters, device, packAdapterBuffers adapters) } } :=
    ⟨h.slots, h.named, fun heq => by
      cases heq
      exact hpacked⟩
  rw [LoRAManagerV3.adapterBuffers]
  split
  · rename_i signature device' buffers hcache
    split_ifs with hhit
    · exact ⟨hhit.1 ▸ h.cached hcache, h⟩
    · exact ⟨hpacked, hmiss⟩
  · exact ⟨hpacked, hmiss⟩

theorem Inv.step (h : Inv f s) (op : LoRAOp D)
    (hload : ∀ spec path w, op = .load spec → env.resolveAdapterPath (partition spec).2 = some path →
      env.readAdapter path = some w → w = f (partition spec).1) : Inv f (s.step env op) := by
  cases op with
  | load spec =>
    have hcases := s.manager.loadAdapter_cases env spec
    simp only [LoRASession.step]
    generalize s.manager.loadAdapter env spec = res at hcases ⊢
    obtain ⟨status, manager⟩ := res
    rcases hcases with hsame | ⟨path, w, hpath, hread, hnew⟩
    · obtain rfl : manager = s.manager := hsame
      refine ⟨h.slots, fun {name model} hmodel => ?_, h.cached⟩
      have hold := h.named hmodel
      split_ifs
      · rcases eq_or_ne name (partition spec).1 with rfl | hne
        · simp [hmodel, hold]
        · simpa [Function.update_of_ne hne] using hold
      · exact hold
    · have hw := hload spec path w rfl hpath hread
      obtain ⟨rfl, rfl⟩ := Prod.mk.inj hnew
      refine ⟨h.slots, fun {name model} hmodel => ?_, h.cached⟩
      rcases get?_insert.mp hmodel with ⟨rfl, rfl⟩ | ⟨hne, hmodel⟩
      · simp [hw, get?_insert_self]
      · simpa [Function.update_of_ne hne] using h.named hmodel
  | unload name =>
    simp only [LoRASession.step, unloadAdapter]
    split
    · exact h
    · exact ⟨h.slots.remove, fun hmodel => h.named (get?_erase.mp hmodel).1, h.cached⟩
  | activate name =>
    simp only [LoRASession.step]
    rcases hactivate : s.manager.activateAdapter name with _ | manager
    · exact h
    · simp only [activateAdapter, Option.bind_eq_bind, Option.bind_eq_some_iff, Option.pure_def] at hactivate
      obtain ⟨model, -, c, hput, heq⟩ := hactivate
      cases heq
      exact ⟨h.slots.put hput, h.named, h.cached⟩
  | sortBatch batch => exact h
  | inputBuffers batch device =>
    have hbuffers := (h.adapterBuffers env batch device).2
    simp only [LoRASession.step, LoRAManagerV3.inputBuffers]
    split_ifs <;> exact hbuffers

/-- All paths that are loaded under a name store the adapter `f name`. -/
def OneAdapterPerName (env : LoRASetup A) (f : String → A) (ops : List (LoRAOp D)) : Prop :=
  ∀ spec path w, .load spec ∈ ops → env.resolveAdapterPath (partition spec).2 = some path →
    env.readAdapter path = some w → w = f (partition spec).1

theorem Inv.run {ops : List (LoRAOp D)} (h : OneAdapterPerName env f ops) : Inv f (run env ops) := by
  induction ops using reverseRecOn with
  | nil => exact ⟨.new _, by simp [LoRASession.run], by simp [LoRASession.run]⟩
  | append_singleton ops op ih =>
    rw [LoRASession.run, foldl_append, foldl_cons, foldl_nil]
    refine (ih fun spec path w hmem => h spec path w (by simp [hmem])).step op ?_
    rintro spec path w rfl
    exact h spec path w (by simp)

/-- In a run where every name is loaded with one adapter only, the buffers of every batch hold the adapters last
    loaded under the names they are routed for, and zeros in the slots of no active adapter. -/
theorem inputBuffers_hold (env : LoRASetup A) (f : String → A) (ops : List (LoRAOp D))
    (h : OneAdapterPerName env f ops) (batch : List (Option String)) (device : D) (buffers : ℕ → Option A)
    (hcall : ((run env ops).manager.inputBuffers env batch device).1 = some buffers) :
    (∀ name slot, some name ∈ batch → (run env ops).manager.modelNameToId env (some name) = some slot →
      ∃ w, (run env ops).latest name = some w ∧ buffers slot = some w) ∧
    ∀ slot, (∀ name, (run env ops).manager.activeLoras.nameToSlot.get? name ≠ some slot) → buffers slot = none := by
  have hinv := Inv.run h
  generalize run env ops = s at hinv hcall ⊢
  obtain ⟨hnames, -⟩ := hinv.adapterBuffers env batch device
  have hbuffers : (s.manager.adapterBuffers (s.manager.activeAdaptersBySlot env batch) device).1 = buffers := by
    simp only [inputBuffers] at hcall
    split_ifs at hcall
    exact Option.some.inj hcall
  rw [hbuffers] at hnames
  simp only [Names, adapterSignature, mem_mergeSort, mem_map, Prod.mk.injEq, Prod.exists, ← get?_eq_some_iff] at hnames
  constructor
  · intro name slot hmem hid
    obtain ⟨model, hmodel⟩ := (slot_of_modelNameToId hid).2
    obtain ⟨hname, hweights, hlatest⟩ := hinv.named hmodel
    exact ⟨f name, hlatest, (hnames slot (f name)).mpr
      ⟨name, ⟨slot, model, activeAdapters_of_mem hinv.slots hmem hid hmodel, rfl, hname⟩, rfl⟩⟩
  · intro slot hfree
    refine Option.eq_none_iff_forall_ne_some.mpr fun w hw => ?_
    obtain ⟨name, ⟨slot, model, hmodel, rfl, -⟩, -⟩ := (hnames slot w).mp hw
    obtain ⟨name, hid, -⟩ := exists_of_activeAdapters hmodel
    exact hfree name (slot_of_modelNameToId hid).1

def twoAdapters : LoRASetup ℕ where
  baseModelPath := "base"
  maxNumLoras := 2
  resolveAdapterPath := some
  readAdapter path := if path = "x" then some 1 else if path = "y" then some 2 else none

/-- Two adapters under two names. -/
theorem inputBuffers_hold_two :
    ∃ w, (run (D := Unit) twoAdapters [.load "a=x", .load "b=y", .activate "b", .activate "a"]).latest "a" = some w ∧
      packAdapterBuffers ((run (D := Unit) twoAdapters
        [.load "a=x", .load "b=y", .activate "b", .activate "a"]).manager.activeAdaptersBySlot twoAdapters
          [some "b", some "a"]) 1 = some w :=
  (inputBuffers_hold twoAdapters (fun name => if name = "a" then 1 else 2)
    [.load "a=x", .load "b=y", .activate "b", .activate "a"]
    (by
      intro spec path w hmem hpath hread
      simp only [mem_cons, LoRAOp.load.injEq, reduceCtorEq, not_mem_nil, or_false] at hmem
      cases hpath
      rcases hmem with rfl | rfl
      · exact Option.some.inj (hread.symm.trans rfl)
      · exact Option.some.inj (hread.symm.trans rfl))
    [some "b", some "a"] () _ rfl).1 "a" 1 (by simp) rfl

/-- The same name unloaded and loaded from another path, into the same slot: the signature is the same, and the
    buffers are still those of the first adapter. -/
theorem inputBuffers_stale :
    let s := run twoAdapters [.load "a=x", .activate "a", .inputBuffers [some "a"] (), .unload "a", .load "a=y",
      .activate "a"]
    s.latest "a" = some 2 ∧ s.manager.modelNameToId twoAdapters (some "a") = some 0 ∧
      ((s.manager.inputBuffers twoAdapters [some "a"] ()).1.map (· 0)) = some (some 1) := by
  decide +kernel

end LoRASession

end MojoProse.Pipelines
