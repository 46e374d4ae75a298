import MojoProse.Schemes.Guard
import MojoProse.Schemes.HashChain
import Mathlib.Data.Vector.Basic

/-! Prefix-cache keys (`block_utils.py`, `block_manager.py`, `_core_mojo`).

    The tokens of a request are cut into blocks; every full block gets a key that chains the hash of
    its tokens onto the key of the block before. The native hashes are parameters: whatever AHash and
    SHA-256 compute, they are functions of their byte input. -/

namespace MojoProse.KvCache
open Schemes List

abbrev Bytes := List UInt8

/-- The native primitives: `hash_seeded_bytes`, `hash_seeded` on a pair, and `sha256`. -/
structure Primitives where
  ahashBytes : Bytes → Bytes → UInt64
  ahashPair : Bytes → UInt64 → UInt64 → UInt64
  sha256 : Bytes → List.Vector UInt8 32

inductive KVHashAlgo where | ahash64 | sha256 | sha256_64
  deriving DecidableEq, Repr

def KVHashAlgo.name : KVHashAlgo → String
  | .ahash64 => "ahash64"
  | .sha256 => "sha256"
  | .sha256_64 => "sha256_64"

/-- `TokenHashOverride`; `source` is a label nothing reads. -/
structure TokenHashOverride where
  tokenIdx : ℕ
  tokenHash : ℤ
  deriving DecidableEq, Repr

/-- `astype(np.int32)`: the low 32 bits. -/
def toInt32 (x : ℤ) : BitVec 32 := BitVec.ofInt 32 x

/-- The little-endian bytes of an int32 in memory. -/
def int32Bytes (x : BitVec 32) : Bytes :=
  (range 4).map fun k => UInt8.ofNat (x.toNat / 256 ^ k)

def tokenBytes (tokens : List ℤ) : Bytes := tokens.flatMap fun x => int32Bytes (toInt32 x)

/-- `i.to_bytes(8, "big", signed=True)`. -/
def intToBytes (i : ℤ) : Bytes :=
  (range 8).map fun k => UInt8.ofNat ((BitVec.ofInt 64 i).toNat / 256 ^ (7 - k))

/-- `int.from_bytes(b, "big", signed=True)`, for eight bytes. -/
def intFromBytes (b : Bytes) : ℤ :=
  (BitVec.ofNat 64 (b.foldl (fun n x => n * 256 + x.toNat) 0)).toInt

/-- The `Int` of a native hash: its 64 bits read as signed. -/
def hashToInt (h : UInt64) : ℤ := h.toBitVec.toInt

/-- The `UInt64` of an `Int`: its low 64 bits. -/
def intToHash (i : ℤ) : UInt64 := ⟨BitVec.ofInt 64 i⟩

theorem intToHash_intFromBytes_intToBytes (h : UInt64) : intToHash (intFromBytes (intToBytes (hashToInt h))) = h := by
  have hdigs : ∀ n : ℕ, n < 2 ^ 64 → ((range 8).map fun k => UInt8.ofNat (n / 256 ^ (7 - k))).foldl
        (fun n x => n * 256 + x.toNat) 0 = n := by
    intro n hn
    simp only [range_succ, range_zero, nil_append, cons_append, map_cons,
      map_nil, foldl_cons, foldl_nil, UInt8.toNat_ofNat']
    omega
  have hlt : h.toBitVec.toNat < 2 ^ 64 := h.toBitVec.isLt
  simp only [intFromBytes, intToBytes, hashToInt, intToHash, BitVec.ofInt_toInt]
  rw [hdigs _ hlt, BitVec.ofNat_toNat]
  simp

theorem length_intToBytes (i : ℤ) : (intToBytes i).length = 8 := by simp [intToBytes]

variable (P : Primitives)

/-- One step of `_mojo_block_hasher`: the token hash paired with the previous hash. -/
def ahashStep (seed : Bytes) (prev : UInt64) (tokens : List ℤ) : UInt64 :=
  P.ahashPair seed prev (P.ahashBytes seed (tokenBytes tokens))

/-- One step of `_mojo_block_hasher_sha256`: SHA-256 of the token digest and the previous digest. -/
def sha256Step (prev : List.Vector UInt8 32) (tokens : List ℤ) : List.Vector UInt8 32 :=
  P.sha256 ((P.sha256 (tokenBytes tokens)).toList ++ prev.toList)

def blockHasher (tokens : List ℤ) (blockSize : ℕ) (parentHash seed : Bytes) : Except String (List Bytes) := do
  raiseIf (blockSize ≤ 0) s!"block_size must be greater than 0, found {blockSize}"
  raiseIf (parentHash.length ≠ 8)
    s!"parent_hash must be exactly 8 bytes, got {parentHash.length}"
  raiseIf (seed.length ≠ 32) s!"seed must be exactly 32 bytes, got {seed.length}"
  return (chain (ahashStep P seed) (intToHash (intFromBytes parentHash))
    (blocks blockSize tokens)).map fun h => intToBytes (hashToInt h)

def blockHasherSha256 (tokens : List ℤ) (blockSize : ℕ) (parentHash : Bytes) : Except String (List Bytes) := do
  raiseIf (blockSize ≤ 0) s!"block_size must be greater than 0, found {blockSize}"
  if h : parentHash.length = 32 then
    return (chain (sha256Step P) ⟨parentHash, h⟩ (blocks blockSize tokens)).map List.Vector.toList
  else throw s!"parent_hash must be exactly 32 bytes, got {parentHash.length}"

def defaultParentHash : Bytes := replicate 8 0

def zeroSeed : Bytes := List.replicate 32 0

/-- `_make_root_parent_hash`: seed XOR SHA-256 of the salt; an empty salt is no salt. -/
def makeRootParentHash (seed : Option Bytes) (salt : Option String) : Except String Bytes := do
  let base := seed.getD zeroSeed
  raiseIf (base.length ≠ 32) s!"seed must be exactly 32 bytes, got {base.length}"
  match salt with
  | none => return base
  | some salt =>
    if salt = "" then return base
    else return List.zipWith (· ^^^ ·) base (P.sha256 salt.toUTF8.data.toList).toList

/-- The overrides that fall into the slice, rebased on it, in order of insertion. -/
def overridesInSlice (prefixLength : ℤ) (n : ℕ) : List TokenHashOverride → List (ℕ × ℤ) → Except String (List (ℕ × ℤ))
  | [], acc => .ok acc
  | o :: os, acc =>
    let idx := (o.tokenIdx : ℤ) - prefixLength
    if 0 ≤ idx ∧ idx < n then
      if idx.toNat ∈ acc.map Prod.fst then
        .error "Multiple token hash overrides target the same token index."
      else overridesInSlice prefixLength n os (acc ++ [(idx.toNat, o.tokenHash)])
    else overridesInSlice prefixLength n os acc

/-- The tokens with the overrides written over them. -/
def applyOverrides (tokens : List ℤ) (overrides : List (ℕ × ℤ)) : List ℤ :=
  overrides.foldl (fun l o => l.set o.1 o.2) tokens

/-- The parent digest of the SHA-256 algorithms: the root, or the 32 bytes passed in. -/
def sha256Parent (algo : KVHashAlgo) (parentHash : Option Bytes) (seed : Option Bytes)
    (salt : Option String) : Except String Bytes :=
  match parentHash with
  | none => makeRootParentHash P seed salt
  | some parent =>
    if parent.length ≠ 32 then
      .error s!"algo={algo.name} requires 32-byte parent_hash, got{parent.length}"
    else .ok parent

/-- `hash_request_tokens`. The tokens are restored on every way out, so the model only returns. -/
def hashRequestTokens (tokenIds : List ℤ) (blockSize : ℕ) (parentHash : Option Bytes)
    (prefixLength : ℤ) (tokenHashOverrides : List TokenHashOverride) (algo : KVHashAlgo)
    (seed : Option Bytes) (salt : Option String) : Except String (List Bytes) := do
  raiseIf (tokenHashOverrides ≠ [] ∧ prefixLength = -1)
    "prefix_length must be set when token hash overrides are provided"
  let inSlice ← overridesInSlice prefixLength tokenIds.length tokenHashOverrides []
  let tokens := applyOverrides tokenIds inSlice
  match algo with
  | .ahash64 =>
    let parent := parentHash.getD defaultParentHash
    if seed.isSome ∨ salt.isSome then
      let effectiveSeed ← makeRootParentHash P seed salt
      blockHasher P tokens blockSize parent effectiveSeed
    else blockHasher P tokens blockSize parent zeroSeed
  | .sha256 | .sha256_64 =>
    let parent ← sha256Parent P algo parentHash seed salt
    let digests ← blockHasherSha256 P tokens blockSize parent
    return if algo = .sha256 then digests else digests.map (List.take 8)

/-- What the hashing reads of a request; images (start index and hash) and further overrides only of a vision context.
    -/
structure HashContext where
  tokens : List ℤ
  isVision : Bool
  images : List (ℕ × Option ℤ)
  tokenHashOverrides : List TokenHashOverride
  cacheSalt : Option String

/-- The overrides of the images; every image needs its hash. -/
def imageOverrides : List (ℕ × Option ℤ) → Except String (List TokenHashOverride)
  | [] => .ok []
  | (_, none) :: _ =>
    .error "hash_request_tokens requires `image_hash` to be present. Found None."
  | (idx, some h) :: rest => do
    let os ← imageOverrides rest
    return ⟨idx, h⟩ :: os

def HashContext.overrides (ctx : HashContext) : Except String (List TokenHashOverride) :=
  if ctx.isVision then do
    let os ← imageOverrides ctx.images
    return os ++ ctx.tokenHashOverrides
  else .ok []

/-- `compute_block_hashes`: the keys behind `existingHashes`. The last token is never hashed. -/
def computeBlockHashes (ctx : HashContext) (existingHashes : List Bytes) (blockSize : ℕ)
    (algo : KVHashAlgo) (seed : Option Bytes) : Except String (List Bytes) :=
  let numHashed := existingHashes.length * blockSize
  let numHashable : ℤ := (ctx.tokens.length : ℤ) - 1
  if numHashable - numHashed < blockSize then .ok []
  else do
    let os ← ctx.overrides
    hashRequestTokens P ((ctx.tokens.take numHashable.toNat).drop numHashed) blockSize
      existingHashes.getLast? numHashed os algo seed ctx.cacheSalt

end MojoProse.KvCache
