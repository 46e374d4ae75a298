import MojoProse.KvCache.BlockHash

/-! Hashing a request in one call or over several.

    A key list is extended by further `compute_block_hashes` calls, each chaining onto the last key.
    `ahash64` and `sha256` keep the whole chain value in the key, so the split does not matter.
    `sha256_64` keeps 8 of its 32 bytes, and a call that has to chain onto such a key raises. -/

namespace MojoProse.KvCache
open Schemes List HashContext Nat

variable {P : Primitives} {bs : List (List ℤ)} {seed : Option Bytes}

/-! ### Overrides -/

/-- The tokens that are hashed: each override in place of the token at its index. -/
def effective (tokens : List ℤ) (os : List TokenHashOverride) : List ℤ :=
  tokens.mapIdx fun i x => ((os.find? fun o => o.tokenIdx = i).map (·.tokenHash)).getD x

/-- Where an override lands in the slice of `n` tokens that starts at `k`. -/
def rebase (k n : ℕ) (o : TokenHashOverride) : Option (ℕ × ℤ) :=
  if k ≤ o.tokenIdx ∧ o.tokenIdx < k + n then some (o.tokenIdx - k, o.tokenHash) else none

theorem overridesInSlice_ok (k n : ℕ) :
    ∀ (os : List TokenHashOverride) (acc : List (ℕ × ℤ)), (os.map (·.tokenIdx)).Nodup →
      (∀ o ∈ os, ∀ a ∈ acc, a.1 + k ≠ o.tokenIdx) → overridesInSlice k n os acc = .ok (acc ++ os.filterMap (rebase k n))
  | [], acc, _, _ => by simp [overridesInSlice]
  | o :: os, acc, hnd, hdis => by
    simp only [map_cons, nodup_cons, mem_map, not_exists, not_and] at hnd
    obtain ⟨hfresh, hnd⟩ := hnd
    simp only [overridesInSlice]
    by_cases hin : k ≤ o.tokenIdx ∧ o.tokenIdx < k + n
    · have hidx : ((o.tokenIdx : ℤ) - k).toNat = o.tokenIdx - k := by omega
      rw [if_pos (by omega), hidx, if_neg, overridesInSlice_ok k n os _ hnd]
      · simp [rebase, hin]
      · intro o' ho' a ha
        rcases mem_append.mp ha with ha | ha
        · exact hdis o' (mem_cons_of_mem _ ho') a ha
        · have := hfresh o' ho'
          simp only [mem_singleton] at ha
          subst ha
          show o.tokenIdx - k + k ≠ _
          omega
      · simp only [mem_map, not_exists, not_and]
        intro a ha heq
        exact hdis o (by simp) a ha (by omega)
    · rw [if_neg (by omega), overridesInSlice_ok k n os acc hnd (fun o' ho' => hdis o' (mem_cons_of_mem _ ho'))]
      simp [rebase, hin]

/-- Overrides of different indices do not get in each other's way. -/
theorem getElem?_applyOverrides {i : ℕ} : ∀ {ovs : List (ℕ × ℤ)}, (ovs.map Prod.fst).Nodup → ∀ l : List ℤ,
    (applyOverrides l ovs)[i]? = l[i]?.map fun x => ((ovs.find? fun o => o.1 = i).map Prod.snd).getD x
  | [], _, l => by simp [applyOverrides]
  | o :: ovs, hnd, l => by
    obtain ⟨hfresh, hnd⟩ := nodup_cons.mp hnd
    rw [applyOverrides, foldl_cons, ← applyOverrides, getElem?_applyOverrides hnd]
    rcases eq_or_ne o.1 i with rfl | hne
    · have hnone : (ovs.find? fun o' => o'.1 = o.1) = none :=
        find?_eq_none.mpr fun o' ho' h => hfresh (mem_map.mpr ⟨o', ho', by simpa using h⟩)
      rw [hnone, getElem?_set]
      rcases lt_or_ge o.1 l.length with hlt | hge
      · simp [hlt]
      · simp [hge]
    · rw [getElem?_set_ne hne, find?_cons_of_neg (by simpa using hne)]

theorem find?_rebase {k n i : ℕ} (hi : i < n) (os : List TokenHashOverride) :
    ((os.filterMap (rebase k n)).find? fun a => a.1 = i).map Prod.snd =
      (os.find? fun o => o.tokenIdx = k + i).map (·.tokenHash) := by
  have hat : ∀ o, o.tokenIdx = k + i → rebase k n o = some (i, o.tokenHash) := by
    intro o ho
    rw [rebase, if_pos (by omega), ho, Nat.add_sub_cancel_left]
  have hsame : (fun o => (rebase k n o).any fun a => a.1 = i) = fun o => decide (o.tokenIdx = k + i) := by
    funext o
    unfold rebase
    split_ifs
    · simp
      omega
    · simp
      omega
  rw [find?_filterMap, hsame]
  cases hfind : os.find? fun o => o.tokenIdx = k + i with
  | none => rfl
  | some o => rw [Option.bind_some, hat o (by simpa using find?_some hfind)]; rfl

theorem applyOverrides_slice (os : List TokenHashOverride) (hnd : (os.map (·.tokenIdx)).Nodup)
    (tokens : List ℤ) (k m : ℕ) : applyOverrides ((tokens.take m).drop k)
        (os.filterMap (rebase k ((tokens.take m).drop k).length)) = ((effective tokens os).take m).drop k := by
  generalize hn : ((tokens.take m).drop k).length = n
  have hnd' : ((os.filterMap (rebase k n)).map Prod.fst).Nodup := by
    refine pairwise_map.mpr ((pairwise_map.mp hnd).filterMap _ fun o o' hne a ha a' ha' => ?_)
    unfold rebase at ha ha'
    split_ifs at ha ha'
    grind
  refine ext_getElem? fun i => ?_
  rw [getElem?_applyOverrides hnd']
  rcases lt_or_ge i n with hi | hi
  · rw [find?_rebase hi]
    simp only [length_drop, length_take] at hn
    simp only [getElem?_drop, getElem?_take_of_lt (show k + i < m by omega), effective, getElem?_mapIdx]
  · have hlen : (effective tokens os).length = tokens.length := by simp [effective]
    rw [getElem?_eq_none (by omega), getElem?_eq_none (by simp at hn ⊢; omega), Option.map_none]

/-! ### The chain behind the keys -/

/-- The 32 bytes of `_make_root_parent_hash` when it returns. -/
def rootBytes (P : Primitives) (seed : Option Bytes) (salt : Option String) : Bytes :=
  match salt with
  | none => seed.getD zeroSeed
  | some salt =>
    if salt = "" then seed.getD zeroSeed
    else zipWith (· ^^^ ·) (seed.getD zeroSeed) (P.sha256 salt.toUTF8.data.toList).toList

/-- A seed as `resolve_kv_hash_seed` gives it: absent, or 32 bytes. -/
def SeedOk (seed : Option Bytes) : Prop := (seed.getD zeroSeed).length = 32

theorem makeRootParentHash_ok (hs : SeedOk seed) (salt : Option String) :
    makeRootParentHash P seed salt = .ok (rootBytes P seed salt) := by
  unfold SeedOk at hs
  unfold makeRootParentHash rootBytes
  simp only [raiseIf, hs]
  cases salt with
  | none => rfl
  | some salt => by_cases h : salt = "" <;> simp [h]

theorem length_rootBytes (hs : SeedOk seed) (salt : Option String) : (rootBytes P seed salt).length = 32 := by
  unfold SeedOk at hs
  unfold rootBytes
  cases salt with
  | none => exact hs
  | some salt => by_cases h : salt = "" <;> simp [h, hs]

def rootDigest (P : Primitives) (seed : Option Bytes) (hs : SeedOk seed) (salt : Option String) :
    List.Vector UInt8 32 :=
  ⟨rootBytes P seed salt, length_rootBytes hs salt⟩

/-- A chain of values and the key each is written out as. -/
structure KeyChain where
  σ : Type
  step : σ → List ℤ → σ
  root : σ
  key : σ → Bytes

section
variable (K : KeyChain) (bs : List (List ℤ))

def KeyChain.keys : List Bytes :=
  (chain K.step K.root bs).map K.key

@[simp] theorem KeyChain.length_keys : (K.keys bs).length = bs.length := by
  simp [KeyChain.keys]

def KeyChain.last : K.σ := (chain K.step K.root bs).getLastD K.root

end

theorem KeyChain.keys_append (K : KeyChain) (bs cs : List (List ℤ)) :
    K.keys (bs ++ cs) = K.keys bs ++ (chain K.step (K.last bs) cs).map K.key := by
  simp [KeyChain.keys, chain_append, KeyChain.last]

theorem KeyChain.getLast?_keys (K : KeyChain) (hne : bs ≠ []) : (K.keys bs).getLast? = some (K.key (K.last bs)) := by
  have hc : chain K.step K.root bs ≠ [] := by
    rw [← length_pos_iff, length_chain]
    exact length_pos_iff.mpr hne
  rw [KeyChain.keys, getLast?_map, getLast?_eq_some_getLast hc, Option.map_some,
    KeyChain.last, getLastD_eq_getLast?, getLast?_eq_some_getLast hc, Option.getD_some]

def ahashSeed (P : Primitives) (seed : Option Bytes) (salt : Option String) : Bytes :=
  if seed.isSome ∨ salt.isSome then rootBytes P seed salt else zeroSeed

/-- The chain each algorithm runs under a seed and a salt. -/
def keyChain (P : Primitives) (algo : KVHashAlgo) (seed : Option Bytes) (hs : SeedOk seed)
    (salt : Option String) : KeyChain :=
  match algo with
  | .ahash64 =>
    { σ := UInt64
      step := ahashStep P (ahashSeed P seed salt)
      root := intToHash (intFromBytes defaultParentHash)
      key := fun h => intToBytes (hashToInt h) }
  | .sha256 =>
    { σ := List.Vector UInt8 32
      step := sha256Step P
      root := rootDigest P seed hs salt
      key := List.Vector.toList }
  | .sha256_64 =>
    { σ := List.Vector UInt8 32
      step := sha256Step P
      root := rootDigest P seed hs salt
      key := fun d => d.toList.take 8 }

section Calls
variable {algo : KVHashAlgo} {seed parentHash : Option Bytes} {hs : SeedOk seed} {salt : Option String}
  {tokens : List ℤ} {blockSize k : ℕ} {os : List TokenHashOverride} {inSlice : List (ℕ × ℤ)}

theorem length_ahashSeed (hs : SeedOk seed) : (ahashSeed P seed salt).length = 32 := by
  unfold ahashSeed
  split
  · exact length_rootBytes hs salt
  · simp [zeroSeed]

theorem blockHasher_ok (hb : 0 < blockSize) {parent seed' : Bytes} (hp : parent.length = 8) (hl : seed'.length = 32) :
    blockHasher P tokens blockSize parent seed' = .ok ((chain (ahashStep P seed') (intToHash (intFromBytes parent))
        (blocks blockSize tokens)).map fun h => intToBytes (hashToInt h)) := by
  have hb' : ¬ blockSize ≤ 0 := by omega
  simp [blockHasher, raiseIf, hb', hp, hl]

theorem blockHasherSha256_ok (hb : 0 < blockSize) {parent : Bytes} (hp : parent.length = 32) :
    blockHasherSha256 P tokens blockSize parent = .ok ((chain (sha256Step P) ⟨parent, hp⟩ (blocks blockSize tokens)).map
        List.Vector.toList) := by
  have hb' : ¬ blockSize ≤ 0 := by omega
  simp [blockHasherSha256, raiseIf, hb', hp]

/-- What is left of `hash_request_tokens` once the overrides are in place. -/
theorem hashRequestTokens_eq (hos : overridesInSlice k tokens.length os [] = .ok inSlice) :
    hashRequestTokens P tokens blockSize parentHash k os algo seed salt =
      match algo with
      | .ahash64 =>
        if seed.isSome ∨ salt.isSome then do
          let s ← makeRootParentHash P seed salt
          blockHasher P (applyOverrides tokens inSlice) blockSize (parentHash.getD defaultParentHash) s
        else blockHasher P (applyOverrides tokens inSlice) blockSize (parentHash.getD defaultParentHash) zeroSeed
      | .sha256 | .sha256_64 => do
        let parent ← sha256Parent P algo parentHash seed salt
        let digests ← blockHasherSha256 P (applyOverrides tokens inSlice) blockSize parent
        return if algo = .sha256 then digests else digests.map (List.take 8) := by
  have hk : ¬ (os ≠ [] ∧ (k : ℤ) = -1) := by omega
  unfold hashRequestTokens
  simp only [raiseIf, if_neg hk, hos]
  cases algo <;> rfl

theorem hashRequestTokens_ahash64 (hs : SeedOk seed) (hb : 0 < blockSize)
    (hp : (parentHash.getD defaultParentHash).length = 8) (hos : overridesInSlice k tokens.length os [] = .ok inSlice) :
    hashRequestTokens P tokens blockSize parentHash k os .ahash64 seed salt =
      .ok ((chain (ahashStep P (ahashSeed P seed salt)) (intToHash (intFromBytes (parentHash.getD defaultParentHash)))
        (blocks blockSize (applyOverrides tokens inSlice))).map fun h => intToBytes (hashToInt h)) := by
  have hl : (ahashSeed P seed salt).length = 32 := length_ahashSeed hs
  rw [hashRequestTokens_eq hos, ← blockHasher_ok hb hp hl]
  unfold ahashSeed
  by_cases h : seed.isSome ∨ salt.isSome
  · simp only [if_pos h, makeRootParentHash_ok hs]
    rfl
  · simp [if_neg h]

theorem hashRequestTokens_root (hs : SeedOk seed) (hb : 0 < blockSize)
    (hos : overridesInSlice k tokens.length os [] = .ok inSlice) :
    hashRequestTokens P tokens blockSize none k os algo seed salt = .ok ((keyChain P algo seed hs salt).keys
        (blocks blockSize (applyOverrides tokens inSlice))) := by
  cases algo with
  | ahash64 => exact hashRequestTokens_ahash64 hs hb (by simp [defaultParentHash]) hos
  | sha256 =>
    rw [hashRequestTokens_eq hos]
    simp only [sha256Parent, makeRootParentHash_ok hs, ok_bind,
      blockHasherSha256_ok hb (length_rootBytes hs salt)]
    rfl
  | sha256_64 =>
    rw [hashRequestTokens_eq hos]
    simp only [sha256Parent, makeRootParentHash_ok hs, ok_bind,
      blockHasherSha256_ok hb (length_rootBytes hs salt)]
    refine congrArg Except.ok ?_
    rw [if_neg (by decide), map_map]
    rfl

theorem hashRequestTokens_ahash64_resume (hs : SeedOk seed) (hb : 0 < blockSize)
    (hos : overridesInSlice k tokens.length os [] = .ok inSlice) (h : UInt64) :
    hashRequestTokens P tokens blockSize (some (intToBytes (hashToInt h))) k os .ahash64 seed salt =
      .ok ((chain (ahashStep P (ahashSeed P seed salt)) h (blocks blockSize (applyOverrides tokens inSlice))).map
          fun h => intToBytes (hashToInt h)) := by
  have hlen : ((some (intToBytes (hashToInt h))).getD defaultParentHash).length = 8 := length_intToBytes _
  rw [hashRequestTokens_ahash64 hs hb hlen hos, Option.getD_some, intToHash_intFromBytes_intToBytes]

/-- A key that holds the whole chain value is a parent to resume from. -/
theorem hashRequestTokens_resume (halgo : algo ≠ .sha256_64) (hb : 0 < blockSize)
    (hos : overridesInSlice k tokens.length os [] = .ok inSlice) (hne : bs ≠ []) :
    hashRequestTokens P tokens blockSize ((keyChain P algo seed hs salt).keys bs).getLast? k os algo seed salt =
      .ok ((chain (keyChain P algo seed hs salt).step ((keyChain P algo seed hs salt).last bs)
        (blocks blockSize (applyOverrides tokens inSlice))).map (keyChain P algo seed hs salt).key) := by
  rw [KeyChain.getLast?_keys _ hne]
  cases algo with
  | ahash64 => exact hashRequestTokens_ahash64_resume hs hb hos _
  | sha256 =>
    generalize (keyChain P .sha256 seed hs salt).last bs = d
    have hd : (List.Vector.toList d).length = 32 := d.2
    rw [hashRequestTokens_eq hos]
    simp only [keyChain, sha256Parent, hd, ne_eq, not_true_eq_false, if_false, ok_bind,
      blockHasherSha256_ok hb hd]
    rfl
  | sha256_64 => exact absurd rfl halgo

theorem hashRequestTokens_truncated (hos : overridesInSlice k tokens.length os [] = .ok inSlice)
    (hne : bs ≠ []) : hashRequestTokens P tokens blockSize ((keyChain P .sha256_64 seed hs salt).keys bs).getLast? k
        os .sha256_64 seed salt = .error "algo=sha256_64 requires 32-byte parent_hash, got8" := by
  rw [KeyChain.getLast?_keys _ hne]
  generalize (keyChain P .sha256_64 seed hs salt).last bs = d
  have hd : ((List.Vector.toList d).take 8).length = 8 := by
    rw [List.length_take, show (List.Vector.toList d).length = 32 from d.2]
    rfl
  rw [hashRequestTokens_eq hos]
  simp only [keyChain, sha256Parent, hd]
  rfl

end Calls

/-! ### Successive calls -/

namespace HashContext
variable (ctx : HashContext)

/-- The call does not raise on the overrides: every image has its hash, no index is hit twice. -/
def Hashable : Prop := ∃ os, ctx.overrides = .ok os ∧ (os.map (·.tokenIdx)).Nodup

/-- The tokens the keys of the request are computed from. -/
def effective : List ℤ :=
  match ctx.overrides with
  | .ok os => KvCache.effective ctx.tokens os
  | .error _ => ctx.tokens

/-- How many blocks have a key: the full blocks without the last token. -/
def blockCount (blockSize : ℕ) : ℕ := (ctx.tokens.length - 1) / blockSize

def keyBlocks (blockSize : ℕ) : List (List ℤ) :=
  blocks blockSize (ctx.effective.take (ctx.tokens.length - 1))

theorem length_effective : ctx.effective.length = ctx.tokens.length := by
  unfold effective
  split
  · simp [KvCache.effective]
  · rfl

@[simp] theorem length_keyBlocks (blockSize : ℕ) : (ctx.keyBlocks blockSize).length = ctx.blockCount blockSize := by
  simp [keyBlocks, blockCount, length_effective]

end HashContext

def extendHashes (P : Primitives) (blockSize : ℕ) (algo : KVHashAlgo) (seed : Option Bytes) :
    List HashContext → List Bytes → Except String (List Bytes)
  | [], existing => .ok existing
  | ctx :: calls, existing => do
    let new ← computeBlockHashes P ctx existing blockSize algo seed
    extendHashes P blockSize algo seed calls (existing ++ new)

section Run
variable {algo : KVHashAlgo} {seed : Option Bytes} {hs : SeedOk seed} {blockSize : ℕ} {ctx : HashContext}
  {existing : List Bytes} {os : List TokenHashOverride}

theorem computeBlockHashes_skip (hb : 0 < blockSize) (h : ctx.blockCount blockSize ≤ existing.length) :
    computeBlockHashes P ctx existing blockSize algo seed = .ok [] := by
  have hlt : ctx.tokens.length - 1 < (existing.length + 1) * blockSize :=
    (div_lt_iff_lt_mul hb).mp (lt_succ_of_le h)
  have hmul : (existing.length + 1) * blockSize = existing.length * blockSize + blockSize := by ring
  unfold computeBlockHashes
  rw [if_pos (by omega)]

/-- With blocks to add the call is `hash_request_tokens` on the rest of the tokens. -/
theorem computeBlockHashes_hash (hb : 0 < blockSize)
    (hos : ctx.overrides = .ok os) (h : existing.length < ctx.blockCount blockSize) :
    computeBlockHashes P ctx existing blockSize algo seed =
      hashRequestTokens P ((ctx.tokens.take (ctx.tokens.length - 1)).drop
        (existing.length * blockSize)) blockSize existing.getLast?
        ((existing.length * blockSize : ℕ) : ℤ) os algo seed ctx.cacheSalt := by
  have hle : (existing.length + 1) * blockSize ≤ ctx.tokens.length - 1 := (le_div_iff_mul_le hb).mp h
  have hmul : (existing.length + 1) * blockSize = existing.length * blockSize + blockSize := by ring
  have hnat : ((ctx.tokens.length : ℤ) - 1).toNat = ctx.tokens.length - 1 := by omega
  unfold computeBlockHashes
  rw [if_neg (by omega), hos, hnat]
  rfl

theorem blocks_rest (hos : ctx.overrides = .ok os) (hnd : (os.map (·.tokenIdx)).Nodup) (j : ℕ) :
    blocks blockSize (applyOverrides ((ctx.tokens.take (ctx.tokens.length - 1)).drop (j * blockSize))
        (os.filterMap (rebase (j * blockSize)
          ((ctx.tokens.take (ctx.tokens.length - 1)).drop (j * blockSize)).length))) =
      (ctx.keyBlocks blockSize).drop j := by
  rw [applyOverrides_slice os hnd, blocks_drop, HashContext.keyBlocks]
  simp [HashContext.effective, hos]

/-- A call that starts the chain, or resumes it where keys are whole, brings the keys up to the
    blocks of its context. -/
theorem computeBlockHashes_extend (hs : SeedOk seed) (hb : 0 < blockSize) (hctx : ctx.Hashable) {j : ℕ}
    (hj : j < ctx.blockCount blockSize) (hok : j = 0 ∨ algo ≠ .sha256_64)
    (hex : existing = (keyChain P algo seed hs ctx.cacheSalt).keys ((ctx.keyBlocks blockSize).take j)) :
    ∃ new, computeBlockHashes P ctx existing blockSize algo seed = .ok new ∧
      existing ++ new = (keyChain P algo seed hs ctx.cacheSalt).keys (ctx.keyBlocks blockSize) := by
  obtain ⟨os, hos, hnd⟩ := hctx
  have hlen : existing.length = j := by
    rw [hex, KeyChain.length_keys, length_take, length_keyBlocks]
    omega
  have hsl := overridesInSlice_ok (j * blockSize)
    ((ctx.tokens.take (ctx.tokens.length - 1)).drop (j * blockSize)).length os [] hnd (by simp)
  rw [computeBlockHashes_hash hb hos (by omega), hlen]
  by_cases hj0 : j = 0
  · subst hj0
    obtain rfl : existing = [] := length_eq_zero_iff.mp hlen
    refine ⟨_, hashRequestTokens_root hs hb hsl, ?_⟩
    rw [nil_append, nil_append, blocks_rest hos hnd, drop_zero]
  · have hne : (ctx.keyBlocks blockSize).take j ≠ [] := by
      rw [← length_pos_iff, length_take, length_keyBlocks]
      omega
    rw [hex]
    refine ⟨_, hashRequestTokens_resume (hok.resolve_left hj0) hb hsl hne, ?_⟩
    rw [nil_append, blocks_rest hos hnd, ← KeyChain.keys_append, take_append_drop]

theorem computeBlockHashes_truncated (hb : 0 < blockSize) (hctx : ctx.Hashable)
    (hne : bs ≠ []) (hlt : bs.length < ctx.blockCount blockSize) :
    computeBlockHashes P ctx ((keyChain P .sha256_64 seed hs ctx.cacheSalt).keys bs) blockSize
      .sha256_64 seed = .error "algo=sha256_64 requires 32-byte parent_hash, got8" := by
  obtain ⟨os, hos, hnd⟩ := hctx
  rw [computeBlockHashes_hash hb hos (by simpa using hlt)]
  exact hashRequestTokens_truncated (overridesInSlice_ok _ _ os [] hnd (by simp)) hne

/-- Every call finds the chain at its start, whole, or past its own blocks, so it never raises and the keys only grow.
    -/
theorem extendHashes_ok (algo : KVHashAlgo) (hs : SeedOk seed) (hb : 0 < blockSize) {salt : Option String} {F : List (List ℤ)} :
    ∀ (calls : List HashContext) (j : ℕ),
      (∀ c ∈ calls, c.Hashable ∧ c.cacheSalt = salt ∧ c.keyBlocks blockSize = F.take (c.blockCount blockSize)) →
      (∀ c ∈ calls, algo = .sha256_64 → c.blockCount blockSize = 0 ∨ c.blockCount blockSize = F.length) →
      j ≤ F.length → (algo = .sha256_64 → j = 0 ∨ j = F.length) →
      ∃ j', j ≤ j' ∧ j' ≤ F.length ∧ (∀ c ∈ calls, c.blockCount blockSize ≤ j') ∧
        extendHashes P blockSize algo seed calls ((keyChain P algo seed hs salt).keys (F.take j)) =
          .ok ((keyChain P algo seed hs salt).keys (F.take j'))
  | [], j, _, _, hj, _ => ⟨j, le_rfl, hj, by simp, rfl⟩
  | c :: calls, j, hc, hcnt, hj, hwhole => by
    obtain ⟨hctx, hsalt, hblks⟩ := hc c (by simp)
    have hrest := fun c' hc' => hc c' (mem_cons_of_mem c hc')
    have hcrest := fun c' hc' => hcnt c' (mem_cons_of_mem c hc')
    have hcle : c.blockCount blockSize ≤ F.length := by
      have := congrArg length hblks
      rw [length_keyBlocks, length_take] at this
      omega
    by_cases hskip : c.blockCount blockSize ≤ j
    · obtain ⟨j', hjj', hj'F, hall, hrun⟩ := extendHashes_ok algo hs hb calls j hrest hcrest hj hwhole
      refine ⟨j', hjj', hj'F, ?_, ?_⟩
      · rintro c' (_ | ⟨_, hc'⟩)
        · exact hskip.trans hjj'
        · exact hall c' hc'
      · rw [extendHashes, computeBlockHashes_skip hb (by simp; omega)]
        simpa using hrun
    · have hnew := computeBlockHashes_extend (P := P) hs hb hctx (Nat.lt_of_not_le hskip)
        (by
          by_cases ha : algo = .sha256_64
          · have := hwhole ha
            omega
          · exact .inr ha)
        (by rw [hblks, take_take, min_eq_left (by omega)])
      obtain ⟨new, hcall, hkeys⟩ := hnew
      obtain ⟨j', hjj', hj'F, hall, hrun⟩ := extendHashes_ok algo hs hb calls (c.blockCount blockSize)
        hrest hcrest hcle (hcnt c (by simp))
      refine ⟨j', by omega, hj'F, ?_, ?_⟩
      · rintro c' (_ | ⟨_, hc'⟩)
        · exact hjj'
        · exact hall c' hc'
      · subst hsalt
        rw [extendHashes, hcall]
        simpa [hkeys, hblks] using hrun

theorem extendHashes_stuck (hb : 0 < blockSize) {salt : Option String} {B : List (List ℤ)} (hB : B ≠ []) :
    ∀ (calls : List HashContext), (∀ c ∈ calls, c.Hashable ∧ c.cacheSalt = salt) →
      (∃ c ∈ calls, B.length < c.blockCount blockSize) →
      extendHashes P blockSize .sha256_64 seed calls ((keyChain P .sha256_64 seed hs salt).keys B) =
        .error "algo=sha256_64 requires 32-byte parent_hash, got8"
  | [], _, hex => by simp at hex
  | c :: calls, hc, hex => by
    obtain ⟨hctx, rfl⟩ := hc c (by simp)
    by_cases hlt : B.length < c.blockCount blockSize
    · rw [extendHashes, computeBlockHashes_truncated hb hctx hB hlt]
      rfl
    · have hex' : ∃ c ∈ calls, B.length < c.blockCount blockSize := by
        obtain ⟨c', hc', hlt'⟩ := hex
        rcases mem_cons.mp hc' with rfl | hc'
        · exact absurd hlt' hlt
        · exact ⟨c', hc', hlt'⟩
      rw [extendHashes, computeBlockHashes_skip hb (by simp; omega)]
      simpa using extendHashes_stuck hb hB calls (fun c' hc' => hc c' (mem_cons_of_mem c hc')) hex'

end Run

/-- Calls on a growing request: no call shortens it or changes the salt, and all hash tokens of the final request. -/
structure Growing (blockSize : ℕ) (calls : List HashContext) (final : HashContext) : Prop where
  hashable : ∀ c ∈ calls ++ [final], c.Hashable
  salt : ∀ c ∈ calls, c.cacheSalt = final.cacheSalt
  grows : (calls ++ [final]).Pairwise fun c d => c.tokens.length ≤ d.tokens.length
  unchanged : ∀ c ∈ calls, c.effective.take (c.blockCount blockSize * blockSize) =
    final.effective.take (c.blockCount blockSize * blockSize)

section Growing
variable {blockSize : ℕ} {calls : List HashContext} {final : HashContext}

theorem HashContext.keyBlocks_take (hb : 0 < blockSize) (ctx : HashContext) {k : ℕ}
    (hk : k ≤ ctx.blockCount blockSize) :
    (ctx.keyBlocks blockSize).take k = blocks blockSize (ctx.effective.take (k * blockSize)) := by
  have hle : k * blockSize ≤ ctx.tokens.length - 1 := (le_div_iff_mul_le hb).mp hk
  have hlen : k ≤ (ctx.effective.take (ctx.tokens.length - 1)).length / blockSize := by
    simpa [length_effective, blockCount] using hk
  rw [keyBlocks, ← blocks_take hb hlen, take_take, min_eq_left hle]

theorem Growing.blockCount_le (hg : Growing blockSize calls final) {c : HashContext}
    (hc : c ∈ calls) : c.blockCount blockSize ≤ final.blockCount blockSize := by
  have := (pairwise_append.mp hg.grows).2.2 c hc final (by simp)
  exact Nat.div_le_div_right (by omega)

/-- Every call, the last one included, hashes a beginning of the final blocks. -/
theorem Growing.call (hg : Growing blockSize calls final) (hb : 0 < blockSize) :
    ∀ c ∈ calls ++ [final], c.Hashable ∧ c.cacheSalt = final.cacheSalt ∧
      c.keyBlocks blockSize = (final.keyBlocks blockSize).take (c.blockCount blockSize) := by
  intro c hc
  refine ⟨hg.hashable c hc, ?_⟩
  rcases mem_append.mp hc with hmem | hmem
  · refine ⟨hg.salt c hmem, ?_⟩
    rw [final.keyBlocks_take hb (hg.blockCount_le hmem), ← hg.unchanged c hmem,
      ← c.keyBlocks_take hb le_rfl, take_of_length_le (by simp)]
  · obtain rfl := mem_singleton.mp hmem
    exact ⟨rfl, (take_of_length_le (by simp)).symm⟩

theorem extendHashes_sha256_64_raises {P : Primitives} (hs : SeedOk seed) (hb : 0 < blockSize) :
    ∀ {calls : List HashContext}, Growing blockSize calls final →
      (∃ c ∈ calls, 0 < c.blockCount blockSize ∧ c.blockCount blockSize < final.blockCount blockSize) →
      extendHashes P blockSize .sha256_64 seed (calls ++ [final]) [] =
        .error "algo=sha256_64 requires 32-byte parent_hash, got8"
  | [], _, hex => by simp at hex
  | c :: calls, hg, hex => by
    have hrest : Growing blockSize calls final := ⟨fun d hd => hg.hashable d (mem_cons_of_mem c hd),
        fun d hd => hg.salt d (mem_cons_of_mem c hd), (pairwise_cons.mp hg.grows).2,
        fun d hd => hg.unchanged d (mem_cons_of_mem c hd)⟩
    obtain ⟨hctx, hsalt, -⟩ := hg.call hb c (by simp)
    by_cases hzero : c.blockCount blockSize = 0
    · -- nothing hashed yet: the call that stops part way comes later
      have hex' : ∃ d ∈ calls, 0 < d.blockCount blockSize ∧
          d.blockCount blockSize < final.blockCount blockSize := by
        obtain ⟨d, hd, hpos, hlt⟩ := hex
        rcases mem_cons.mp hd with rfl | hd
        · omega
        · exact ⟨d, hd, hpos, hlt⟩
      rw [cons_append, extendHashes, computeBlockHashes_skip hb (by simp [hzero])]
      exact extendHashes_sha256_64_raises hs hb hrest hex'
    · have hlt : c.blockCount blockSize < final.blockCount blockSize := by
        obtain ⟨d, hd, -, hlt⟩ := hex
        rcases mem_cons.mp hd with rfl | hd
        · exact hlt
        · have hcd := (pairwise_cons.mp hg.grows).1 d (by simp [hd])
          have : c.blockCount blockSize ≤ d.blockCount blockSize := Nat.div_le_div_right (by omega)
          omega
      have hfst : ∃ new, computeBlockHashes P c [] blockSize .sha256_64 seed = .ok new ∧
          [] ++ new = (keyChain P .sha256_64 seed hs c.cacheSalt).keys (c.keyBlocks blockSize) :=
        computeBlockHashes_extend hs hb hctx (j := 0) (by omega) (.inl rfl) rfl
      obtain ⟨new, hcall, hkeys⟩ := hfst
      rw [cons_append, extendHashes, hcall, ok_bind, hkeys]
      refine extendHashes_stuck hb ?_ (calls ++ [final]) ?_ ⟨final, by simp, by simpa using hlt⟩
      · rw [← length_pos_iff, length_keyBlocks]
        omega
      · intro d hd
        obtain ⟨hd1, hd2, -⟩ := hrest.call hb d hd
        exact ⟨hd1, hd2.trans hsalt.symm⟩

end Growing

/-- Hashing call by call gives the keys of one call, and no call raises, exactly when the algorithm
    is not `sha256_64` or no call stops part way: every call hashes nothing or everything. -/
theorem extendHashes_eq_iff (P : Primitives) {blockSize : ℕ} (hb : 0 < blockSize)
    (algo : KVHashAlgo) {seed : Option Bytes} (hs : SeedOk seed) {calls : List HashContext}
    {final : HashContext} (hg : Growing blockSize calls final) :
    (∃ keys, computeBlockHashes P final [] blockSize algo seed = .ok keys ∧
        extendHashes P blockSize algo seed (calls ++ [final]) [] = .ok keys) ↔ (algo = .sha256_64 → ∀ c ∈ calls,
        c.blockCount blockSize = 0 ∨ c.blockCount blockSize = final.blockCount blockSize) := by
  constructor
  · rintro ⟨keys, -, hrun⟩ rfl
    by_contra hno
    push Not at hno
    obtain ⟨c, hc, hpos, hne⟩ := hno
    have hle := hg.blockCount_le hc
    rw [extendHashes_sha256_64_raises hs hb hg ⟨c, hc, by omega, by omega⟩] at hrun
    cases hrun
  · intro hcond
    have hrun : ∀ l : List HashContext, (∀ c ∈ l, c ∈ calls ++ [final]) → final ∈ l →
        extendHashes P blockSize algo seed l [] =
          .ok ((keyChain P algo seed hs final.cacheSalt).keys (final.keyBlocks blockSize)) := by
      intro l hl hfin
      obtain ⟨j', -, hj'F, hall, hrun⟩ := extendHashes_ok algo hs hb l 0 (fun c hc => hg.call hb c (hl c hc))
        (fun c hc ha => by
          rcases mem_append.mp (hl c hc) with hmem | hmem
          · simpa using hcond ha c hmem
          · obtain rfl := mem_singleton.mp hmem
            exact .inr (by simp))
        (zero_le _) (fun _ => .inl rfl)
      have hmax := hall final hfin
      rw [length_keyBlocks] at hj'F
      rw [show j' = (final.keyBlocks blockSize).length by simp; omega, take_length] at hrun
      exact hrun
    refine ⟨_, ?_, hrun (calls ++ [final]) (fun _ h => h) (by simp)⟩
    have hone := hrun [final] (by simp) (by simp)
    cases hcall : computeBlockHashes P final [] blockSize algo seed with
    | error e => simp [extendHashes, hcall] at hone
    | ok keys => simpa [extendHashes, hcall] using hone

theorem seedOk_none : SeedOk none := by simp [SeedOk, zeroSeed]

def textRequest (tokens : List ℤ) : HashContext := ⟨tokens, false, [], [], none⟩

theorem growing_textRequest : Growing 1 [textRequest [7, 8]] (textRequest [7, 8, 9]) where
  hashable := fun c hc => ⟨[], by
    rcases mem_append.mp hc with h | h <;> obtain rfl := mem_singleton.mp h <;> rfl,
    List.nodup_nil⟩
  salt := by simp [textRequest]
  grows := by simp [textRequest]
  unchanged := by
    intro c hc
    obtain rfl := mem_singleton.mp hc
    decide

def constantPrimitives : Primitives := ⟨fun _ _ => 0, fun _ _ _ => 0, fun _ => List.Vector.replicate 32 0⟩

theorem extendHashes_eq_iff_sha256 :
    ∃ keys, computeBlockHashes constantPrimitives (textRequest [7, 8, 9]) [] 1 .sha256 none = .ok keys ∧
      extendHashes constantPrimitives 1 .sha256 none ([textRequest [7, 8]] ++ [textRequest [7, 8, 9]]) [] = .ok keys :=
  (extendHashes_eq_iff constantPrimitives one_pos .sha256 seedOk_none growing_textRequest).mpr nofun

/-- Two tokens, then three, one token a block: the second call chains onto an 8-byte key. -/
theorem sha256_64_second_call_raises : Growing 1 [textRequest [7, 8]] (textRequest [7, 8, 9]) ∧
      ∀ P : Primitives, extendHashes P 1 .sha256_64 none ([textRequest [7, 8]] ++ [textRequest [7, 8, 9]]) [] =
          .error "algo=sha256_64 requires 32-byte parent_hash, got8" :=
  ⟨growing_textRequest, fun _ => extendHashes_sha256_64_raises seedOk_none one_pos
    growing_textRequest ⟨textRequest [7, 8], by simp, by decide, by decide⟩⟩

end MojoProse.KvCache
