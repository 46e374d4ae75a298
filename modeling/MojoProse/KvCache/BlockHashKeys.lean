import MojoProse.KvCache.BlockHashSplit

/-! What equal prefix-cache keys say about the contents.

    The wrappers cast the token array to int32 before they hash it, and a media hash written over a
    placeholder is an int64. Where the primitives do not collide, two requests share the key of a
    block exactly when their effective tokens up to it agree modulo `2 ^ 32`, not when they agree. -/

namespace MojoProse.KvCache
open Schemes List Function

theorem toInt32_eq_iff {x y : ℤ} : toInt32 x = toInt32 y ↔ x % 2 ^ 32 = y % 2 ^ 32 := by
  constructor
  · intro h
    have hnat := congrArg (fun b => (b.toNat : ℤ)) h
    simp only [toInt32, BitVec.toNat_ofInt] at hnat
    omega
  · intro h
    apply BitVec.eq_of_toNat_eq
    simp only [toInt32, BitVec.toNat_ofInt]
    omega

theorem int32Bytes_inj {x y : BitVec 32} (h : int32Bytes x = int32Bytes y) : x = y := by
  simp only [int32Bytes, range_succ, range_zero, nil_append, cons_append, map_cons, map_nil, cons.injEq, and_true] at h
  obtain ⟨h0, h1, h2, h3⟩ := h
  have e0 := congrArg UInt8.toNat h0
  have e1 := congrArg UInt8.toNat h1
  have e2 := congrArg UInt8.toNat h2
  have e3 := congrArg UInt8.toNat h3
  simp only [UInt8.toNat_ofNat'] at e0 e1 e2 e3
  apply BitVec.eq_of_toNat_eq
  omega

theorem length_int32Bytes (x : BitVec 32) : (int32Bytes x).length = 4 := by simp [int32Bytes]

def wordBytes (ws : List (BitVec 32)) : Bytes := ws.flatMap int32Bytes

theorem tokenBytes_eq (tokens : List ℤ) : tokenBytes tokens = wordBytes (tokens.map toInt32) := by
  simp [tokenBytes, wordBytes, flatMap_map]

theorem wordBytes_inj : ∀ {v w : List (BitVec 32)}, wordBytes v = wordBytes w → v = w
  | [], [], _ => rfl
  | [], y :: w, h => by
    have := congrArg length h
    simp only [wordBytes, flatMap_nil, flatMap_cons, length_append, length_int32Bytes, length_nil] at this
    omega
  | x :: v, [], h => by
    have := congrArg length h
    simp [wordBytes, length_int32Bytes] at this
  | x :: v, y :: w, h => by
    simp only [wordBytes, flatMap_cons] at h
    obtain ⟨hhead, htail⟩ := append_inj h (by simp [length_int32Bytes])
    rw [int32Bytes_inj hhead, wordBytes_inj htail]

/-- `ahashStep` on the words of a block. -/
def ahashWordStep (P : Primitives) (seed : Bytes) (prev : UInt64) (ws : List (BitVec 32)) : UInt64 :=
  P.ahashPair seed prev (P.ahashBytes seed (wordBytes ws))

/-- `sha256Step` on the words of a block. -/
def sha256WordStep (P : Primitives) (prev : List.Vector UInt8 32) (ws : List (BitVec 32)) : List.Vector UInt8 32 :=
  P.sha256 ((P.sha256 (wordBytes ws)).toList ++ prev.toList)

def wordBlocks (blockSize : ℕ) (tokens : List ℤ) : List (List (BitVec 32)) :=
  (blocks blockSize tokens).map (map toInt32)

theorem chain_ahashStep (P : Primitives) (seed : Bytes) (root : UInt64) (blockSize : ℕ) (tokens : List ℤ) :
    chain (ahashStep P seed) root (blocks blockSize tokens) =
      chain (ahashWordStep P seed) root (wordBlocks blockSize tokens) := by
  have hstep : ahashStep P seed = fun p b => ahashWordStep P seed p (b.map toInt32) := by
    funext p b
    rw [ahashStep, ahashWordStep, tokenBytes_eq]
  rw [hstep]
  exact chain_map _ _ _ _

theorem chain_sha256Step (P : Primitives) (root : List.Vector UInt8 32) (blockSize : ℕ) (tokens : List ℤ) :
    chain (sha256Step P) root (blocks blockSize tokens) =
      chain (sha256WordStep P) root (wordBlocks blockSize tokens) := by
  have hstep : sha256Step P = fun p b => sha256WordStep P p (b.map toInt32) := by
    funext p b
    rw [sha256Step, sha256WordStep, tokenBytes_eq]
  rw [hstep]
  exact chain_map _ _ _ _

/-- AHash does not collide on the blocks and pairs in `V`. -/
structure AHashFree (P : Primitives) (seed : Bytes) (V : List (UInt64 × List (BitVec 32))) : Prop where
  bytes : Set.InjOn (P.ahashBytes seed) {b | ∃ v ∈ V, b = wordBytes v.2}
  pair : Set.InjOn (uncurry (P.ahashPair seed))
    {q | ∃ v ∈ V, q = (v.1, P.ahashBytes seed (wordBytes v.2))}

/-- SHA-256 does not collide on the blocks and on the pairs in `V`. -/
structure Sha256Free (P : Primitives) (V : List (List.Vector UInt8 32 × List (BitVec 32))) : Prop where
  bytes : Set.InjOn P.sha256 {b | ∃ v ∈ V, b = wordBytes v.2}
  pair : Set.InjOn P.sha256
    {b | ∃ v ∈ V, b = (P.sha256 (wordBytes v.2)).toList ++ v.1.toList}

variable {V : List (UInt64 × List (BitVec 32))} {P : Primitives}

theorem AHashFree.injOn {seed : Bytes}
    (h : AHashFree P seed V) : Set.InjOn (uncurry (ahashWordStep P seed)) {v | v ∈ V} := by
  rintro ⟨p, v⟩ hv ⟨q, w⟩ hw heq
  have hpair := h.pair ⟨_, hv, rfl⟩ ⟨_, hw, rfl⟩ heq
  simp only [Prod.mk.injEq] at hpair
  have hbytes := h.bytes ⟨_, hv, rfl⟩ ⟨_, hw, rfl⟩ hpair.2
  exact Prod.ext hpair.1 (wordBytes_inj hbytes)

theorem Sha256Free.injOn {V : List (List.Vector UInt8 32 × List (BitVec 32))} (h : Sha256Free P V) :
    Set.InjOn (uncurry (sha256WordStep P)) {v | v ∈ V} := by
  rintro ⟨p, v⟩ hv ⟨q, w⟩ hw heq
  have hpair := h.pair ⟨_, hv, rfl⟩ ⟨_, hw, rfl⟩ heq
  obtain ⟨hdigest, hprev⟩ := append_inj hpair (by simp)
  have hbytes := h.bytes ⟨_, hv, rfl⟩ ⟨_, hw, rfl⟩ (Subtype.ext hdigest)
  exact Prod.ext (Subtype.ext hprev) (wordBytes_inj hbytes)

/-- No primitive collides on what the two requests hash from the root. -/
def CollisionFree (P : Primitives) (algo : KVHashAlgo) (seed : Option Bytes) (hs : SeedOk seed)
    (salt : Option String) (blockSize : ℕ) (X Y : List ℤ) : Prop :=
  match algo with
  | .ahash64 =>
    AHashFree P (ahashSeed P seed salt)
      (visited (ahashWordStep P (ahashSeed P seed salt)) (intToHash (intFromBytes defaultParentHash))
          (wordBlocks blockSize X) ++
        visited (ahashWordStep P (ahashSeed P seed salt))
          (intToHash (intFromBytes defaultParentHash)) (wordBlocks blockSize Y))
  | .sha256 | .sha256_64 =>
    Sha256Free P
      (visited (sha256WordStep P) (rootDigest P seed hs salt)
          (wordBlocks blockSize X) ++
        visited (sha256WordStep P) (rootDigest P seed hs salt)
          (wordBlocks blockSize Y))

section Keys
variable {P : Primitives} {algo : KVHashAlgo} {seed : Option Bytes} {hs : SeedOk seed}
  {salt : Option String} {blockSize i : ℕ} {X Y : List ℤ}

/-- The first `n` entries agree modulo `2 ^ 32`. -/
def Congruent (n : ℕ) (X Y : List ℤ) : Prop :=
  (X.take n).map (· % 2 ^ 32) = (Y.take n).map (· % 2 ^ 32)

theorem congruent_iff_words {n : ℕ} : Congruent n X Y ↔ (X.take n).map toInt32 = (Y.take n).map toInt32 := by
  unfold Congruent
  generalize X.take n = U
  generalize Y.take n = W
  induction U generalizing W with
  | nil => cases W <;> simp
  | cons x U ih =>
    cases W with
    | nil => simp
    | cons y W => simp only [map_cons, cons.injEq, ih W, toInt32_eq_iff]

theorem take_wordBlocks_eq_iff (hb : 0 < blockSize) (hX : i < X.length / blockSize) (hY : i < Y.length / blockSize) :
    (wordBlocks blockSize X).take (i + 1) = (wordBlocks blockSize Y).take (i + 1) ↔
      Congruent ((i + 1) * blockSize) X Y := by
  rw [congruent_iff_words]
  constructor
  · intro h
    have hflat := congrArg flatten h
    simp only [wordBlocks, ← map_take, ← map_flatten] at hflat
    rwa [flatten_take_blocks hX, flatten_take_blocks hY] at hflat
  · intro h
    have hblks : ∀ Z : List ℤ, i < Z.length / blockSize → (wordBlocks blockSize Z).take (i + 1) =
          blocks blockSize ((Z.take ((i + 1) * blockSize)).map toInt32) := by
      intro Z hZ
      rw [wordBlocks, ← map_take, ← blocks_take hb hZ]
      simp [blocks, block, map_drop, map_take]
    rw [hblks X hX, hblks Y hY, h]

/-- Injective keys of a chain over words agree at an index exactly when the words do up to it. -/
theorem chain_key_eq_iff {σ : Type} {step : σ → List (BitVec 32) → σ} {root : σ} {key : σ → Bytes}
    (hkey : Function.Injective key) {U W : List (List (BitVec 32))} (hinj : Set.InjOn (uncurry step)
      {v | v ∈ visited step root U ++ visited step root W}) (hU : i < U.length) :
    ((chain step root U).map key)[i]? = ((chain step root W).map key)[i]? ↔ U.take (i + 1) = W.take (i + 1) := by
  obtain ⟨u, hu⟩ : ∃ u, (chain step root U)[i]? = some u := ⟨_, getElem?_eq_getElem (by simpa using hU)⟩
  constructor
  · intro h
    rw [getElem?_map, getElem?_map] at h
    have hval := Option.map_injective hkey h
    exact chain_inj hinj (fun v hv => mem_append_left _ hv) (fun v hv => mem_append_right _ hv) hu (hval ▸ hu)
  · intro h
    have htake : (chain step root U).take (i + 1) = (chain step root W).take (i + 1) := by
      rw [chain_take, chain_take, h]
    have hget := congrArg (fun l => l[i]?) htake
    simp only [getElem?_take_of_lt (Nat.lt_succ_self i)] at hget
    rw [getElem?_map, getElem?_map, hget]

/-- Where nothing collides, block `i` of two requests has one key exactly when their tokens agree modulo `2 ^ 32` so
    far. -/
theorem keys_eq_iff (halgo : algo ≠ .sha256_64) (hb : 0 < blockSize)
    (hfree : CollisionFree P algo seed hs salt blockSize X Y) (hX : i < X.length / blockSize)
    (hY : i < Y.length / blockSize) : ((keyChain P algo seed hs salt).keys (blocks blockSize X))[i]? =
        ((keyChain P algo seed hs salt).keys (blocks blockSize Y))[i]? ↔ Congruent ((i + 1) * blockSize) X Y := by
  rw [← take_wordBlocks_eq_iff hb hX hY]
  have hlen : i < (wordBlocks blockSize X).length := by simpa [wordBlocks] using hX
  cases algo with
  | ahash64 =>
    have hkey : Function.Injective fun h : UInt64 => intToBytes (hashToInt h) := by
      intro g h hgh
      rw [← intToHash_intFromBytes_intToBytes g, ← intToHash_intFromBytes_intToBytes h]
      exact congrArg (fun b => intToHash (intFromBytes b)) hgh
    rw [← chain_key_eq_iff hkey (AHashFree.injOn hfree) hlen, ← chain_ahashStep, ← chain_ahashStep]
    rfl
  | sha256 =>
    have hkey : Function.Injective (List.Vector.toList : List.Vector UInt8 32 → Bytes) := fun _ _ h => Subtype.ext h
    rw [← chain_key_eq_iff hkey (Sha256Free.injOn hfree) hlen, ← chain_sha256Step, ← chain_sha256Step]
    rfl
  | sha256_64 => exact absurd rfl halgo

theorem hashRequestTokens_effective (hs : SeedOk seed) (hb : 0 < blockSize) {tokens : List ℤ}
    {os : List TokenHashOverride} (hnd : (os.map (·.tokenIdx)).Nodup) :
    hashRequestTokens P tokens blockSize none 0 os algo seed salt =
      .ok ((keyChain P algo seed hs salt).keys (blocks blockSize (effective tokens os))) := by
  have hsl := overridesInSlice_ok 0 tokens.length os [] hnd (by simp)
  have heff := applyOverrides_slice os hnd tokens 0 tokens.length
  simp only [take_length, drop_zero] at heff
  refine (hashRequestTokens_root hs hb hsl).trans ?_
  rw [nil_append, heff, take_of_length_le (by simp [effective])]

end Keys

/-- Two requests hashed under the same algorithm, seed and salt: that an equal key at block `i` means
    equal effective tokens up to it holds exactly when agreeing modulo `2 ^ 32` does. -/
theorem equal_key_iff (P : Primitives) {algo : KVHashAlgo} (halgo : algo ≠ .sha256_64)
    {seed : Option Bytes} (hs : SeedOk seed) (salt : Option String) {blockSize : ℕ}
    (hb : 0 < blockSize) {tokens tokens' : List ℤ} {os os' : List TokenHashOverride}
    (hnd : (os.map (·.tokenIdx)).Nodup) (hnd' : (os'.map (·.tokenIdx)).Nodup)
    (hfree : CollisionFree P algo seed hs salt blockSize (effective tokens os) (effective tokens' os'))
    {keys keys' : List Bytes} (hkeys : hashRequestTokens P tokens blockSize none 0 os algo seed salt = .ok keys)
    (hkeys' : hashRequestTokens P tokens' blockSize none 0 os' algo seed salt = .ok keys')
    {i : ℕ} (hi : i < keys.length) (hi' : i < keys'.length) :
    (keys[i]? = keys'[i]? → (effective tokens os).take ((i + 1) * blockSize) =
        (effective tokens' os').take ((i + 1) * blockSize)) ↔
      (Congruent ((i + 1) * blockSize) (effective tokens os) (effective tokens' os') →
        (effective tokens os).take ((i + 1) * blockSize) = (effective tokens' os').take ((i + 1) * blockSize)) := by
  rw [hashRequestTokens_effective hs hb hnd, Except.ok.injEq] at hkeys
  rw [hashRequestTokens_effective hs hb hnd', Except.ok.injEq] at hkeys'
  subst hkeys hkeys'
  rw [keys_eq_iff halgo hb hfree (by simpa using hi) (by simpa using hi')]

/-- Primitives that read their input as a number and add. -/
def addingPrimitives : Primitives where
  ahashBytes _ b := UInt64.ofNat (b.foldl (fun n x => n * 256 + x.toNat) 0)
  ahashPair _ p q := p + q
  sha256 _ := List.Vector.replicate 32 0

theorem collisionFree_adding : CollisionFree addingPrimitives .ahash64 none seedOk_none none 1 (effective [1] [])
      (effective [2] []) where
  bytes := by
    rintro _ ⟨v, hv, rfl⟩ _ ⟨w, hw, rfl⟩ heq
    revert v w
    decide
  pair := by
    rintro _ ⟨v, hv, rfl⟩ _ ⟨w, hw, rfl⟩ heq
    revert v w
    decide

theorem nodup_no_overrides : (([] : List TokenHashOverride).map (·.tokenIdx)).Nodup := nodup_nil

/-- Different tokens below `2 ^ 32` have different keys. -/
theorem equal_key_iff_adding : ¬Congruent 1 (effective [1] []) (effective [2] []) ∧
      (((keyChain addingPrimitives .ahash64 none seedOk_none none).keys
          (blocks 1 (effective [1] [])))[0]? = ((keyChain addingPrimitives .ahash64 none seedOk_none none).keys
          (blocks 1 (effective [2] [])))[0]? → (effective [1] []).take 1 = (effective [2] []).take 1) :=
  ⟨by unfold Congruent; decide, (equal_key_iff addingPrimitives (by decide) seedOk_none none Nat.one_pos nodup_no_overrides
    nodup_no_overrides collisionFree_adding
    (hashRequestTokens_effective seedOk_none Nat.one_pos nodup_no_overrides)
    (hashRequestTokens_effective seedOk_none Nat.one_pos nodup_no_overrides)
    (by decide) (by decide)).mpr (by unfold Congruent; decide)⟩

theorem AHashFree.of_forall_eq {seed : Bytes} {u : UInt64 × List (BitVec 32)} (h : ∀ v ∈ V, v = u) :
    AHashFree P seed V where
  bytes := by
    rintro _ ⟨v, hv, rfl⟩ _ ⟨w, hw, rfl⟩ -
    rw [h v hv, h w hw]
  pair := by
    rintro _ ⟨v, hv, rfl⟩ _ ⟨w, hw, rfl⟩ -
    rw [h v hv, h w hw]

/-- A placeholder whose media hash is 1 in one request and `1 + 2 ^ 32` in the other: no primitive
    has to collide, and the requests share every key. -/
theorem media_hashes_share_key : effective [5] [⟨0, 1⟩] ≠ effective [5] [⟨0, 1 + 2 ^ 32⟩] ∧ ∀ P : Primitives,
      CollisionFree P .ahash64 none seedOk_none none 1 (effective [5] [⟨0, 1⟩]) (effective [5] [⟨0, 1 + 2 ^ 32⟩]) ∧
      ∃ key, hashRequestTokens P [5] 1 none 0 [⟨0, 1⟩] .ahash64 none none = .ok [key] ∧
        hashRequestTokens P [5] 1 none 0 [⟨0, 1 + 2 ^ 32⟩] .ahash64 none none = .ok [key] := by
  have hX : wordBlocks 1 (effective [5] [⟨0, 1⟩]) = [[1#32]] := by decide
  have hY : wordBlocks 1 (effective [5] [⟨0, 1 + 2 ^ 32⟩]) = [[1#32]] := by decide
  refine ⟨by decide, fun P => ⟨?_, ?_⟩⟩
  · refine AHashFree.of_forall_eq (u := (intToHash (intFromBytes defaultParentHash), [1#32])) ?_
    rw [hX, hY]
    simp [visited]
  · rw [hashRequestTokens_effective seedOk_none Nat.one_pos (by simp),
      hashRequestTokens_effective seedOk_none Nat.one_pos (by simp)]
    exact ⟨_, rfl, rfl⟩

end MojoProse.KvCache
