import MojoProse.Stdlib.Base64Encode

/-! `_is_valid_utf8_runtime` and `_is_valid_utf8_comptime` (`_utf8.mojo`) accept exactly the well-formed strings.

    The vector version decides about each byte from it and the three before it, so that the proof is about one scan over
    the string with a window of four bytes: `Clean`. What the scan says is read off the nibble tables once
    (`sc_eq_zero_iff_…`), for the 256 values of a byte and the 16 of the next byte's high nibble. -/

namespace MojoProse.Stdlib.Utf8

open List

open Base64 (subWithSaturation)

/-! ### The vector version -/

def tooShort : Byte := 1 <<< 0
def tooLong : Byte := 1 <<< 1
def overlong3 : Byte := 1 <<< 2
def surrogate : Byte := 1 <<< 4
def overlong2 : Byte := 1 <<< 5
def twoConts : Byte := 1 <<< 7
def tooLarge : Byte := 1 <<< 3
def tooLarge1000 : Byte := 1 <<< 6
def overlong4 : Byte := 1 <<< 6
def carry : Byte := tooShort ||| tooLong ||| twoConts

def shuf1 : List Byte :=
  [tooLong, tooLong, tooLong, tooLong,
    tooLong, tooLong, tooLong, tooLong,
    twoConts, twoConts, twoConts, twoConts,
    tooShort ||| overlong2,
    tooShort,
    tooShort ||| overlong3 ||| surrogate,
    tooShort ||| tooLarge ||| tooLarge1000 ||| overlong4]

def shuf2 : List Byte :=
  [carry ||| overlong3 ||| overlong2 ||| overlong4,
    carry ||| overlong2,
    carry,
    carry,
    carry ||| tooLarge,
    carry ||| tooLarge ||| tooLarge1000,
    carry ||| tooLarge ||| tooLarge1000,
    carry ||| tooLarge ||| tooLarge1000,
    carry ||| tooLarge ||| tooLarge1000,
    carry ||| tooLarge ||| tooLarge1000,
    carry ||| tooLarge ||| tooLarge1000,
    carry ||| tooLarge ||| tooLarge1000,
    carry ||| tooLarge ||| tooLarge1000,
    carry ||| tooLarge ||| tooLarge1000 ||| surrogate,
    carry ||| tooLarge ||| tooLarge1000,
    carry ||| tooLarge ||| tooLarge1000]

def shuf3 : List Byte :=
  [tooShort, tooShort, tooShort, tooShort,
    tooShort, tooShort, tooShort, tooShort,
    tooLong ||| overlong2 ||| twoConts ||| overlong3 ||| tooLarge1000 ||| overlong4,
    tooLong ||| overlong2 ||| twoConts ||| overlong3 ||| tooLarge,
    tooLong ||| overlong2 ||| twoConts ||| surrogate ||| tooLarge,
    tooLong ||| overlong2 ||| twoConts ||| surrogate ||| tooLarge,
    tooShort, tooShort, tooShort, tooShort]

def dynamicShuffle (table indices : List Byte) : List Byte := indices.map fun i => table.getD i.toNat 0

def extractVector (width offset : ℕ) (a b : List Byte) : List Byte := ((a ++ b).drop offset).take width

/-- `validate_chunk`, from the three vectors of the bytes before. -/
def validateLanes (prev1 prev2 prev3 currentBlock : List Byte) : List Byte :=
  let byte1High := dynamicShuffle shuf1 (prev1.map fun b : Byte => b >>> 4)
  let byte1Low := dynamicShuffle shuf2 (prev1.map fun b : Byte => b &&& 0x0F)
  let byte2High := dynamicShuffle shuf3 (currentBlock.map fun b : Byte => b >>> 4)
  let sc := zipWith (· &&& ·) (zipWith (· &&& ·) byte1High byte1Low) byte2High
  let isThirdByte := prev2.map fun b => subWithSaturation b (0b11100000 - 0x80)
  let isFourthByte := prev3.map fun b => subWithSaturation b (0b11110000 - 0x80)
  let must23 := zipWith (· ||| ·) isThirdByte isFourthByte
  let must23As80 := must23.map fun b => b &&& 0x80
  zipWith (· ^^^ ·) must23As80 sc

def validateChunk (simdSize : ℕ) (currentBlock previousInputBlock : List Byte) : List Byte :=
  validateLanes (extractVector simdSize (simdSize - 1) previousInputBlock currentBlock)
    (extractVector simdSize (simdSize - 2) previousInputBlock currentBlock)
    (extractVector simdSize (simdSize - 3) previousInputBlock currentBlock) currentBlock

/-- The last chunk: the bytes that are left, and zeros; if none are left, a chunk of zeros. -/
def validateTail (simdSize : ℕ) (previous rest : List Byte) : Bool :=
  let hasError := validateChunk simdSize (rest ++ replicate (simdSize - rest.length) 0) previous
  hasError.all (· = 0)

/-- The loop of `_is_valid_utf8_runtime`. It ends within `fuel` turns if there are no more bytes than that. -/
def runtimeLoop (simdSize : ℕ) : ℕ → List Byte → List Byte → Bool
  | 0, previous, rest => validateTail simdSize previous rest
  | fuel + 1, previous, rest =>
    if simdSize ≤ rest.length then
      let currentBytes := rest.take simdSize
      let hasError := validateChunk simdSize currentBytes previous
      if hasError.any (· ≠ 0) then false else runtimeLoop simdSize fuel currentBytes (rest.drop simdSize)
    else validateTail simdSize previous rest

def isValidUtf8Runtime (simdSize : ℕ) (span : List Byte) : Bool :=
  runtimeLoop simdSize span.length (replicate simdSize 0) span

/-! ### One lane -/

/-- `sc` in the lane of the byte `c` behind `p`. -/
def sc (p c : Byte) : Byte :=
  shuf1.getD (p >>> 4).toNat 0 &&& shuf2.getD (p &&& 0x0F).toNat 0 &&& shuf3.getD (c >>> 4).toNat 0

/-- The lane of the byte `c` behind `p3`, `p2`, `p1`. -/
def laneError (p3 p2 p1 c : Byte) : Byte :=
  ((subWithSaturation p2 (0b11100000 - 0x80) ||| subWithSaturation p3 (0b11110000 - 0x80)) &&& 0x80) ^^^ sc p1 c

/-- No lane of `bytes` behind `p3`, `p2`, `p1` has an error. -/
def Clean : Byte → Byte → Byte → List Byte → Prop
  | _, _, _, [] => True
  | p3, p2, p1, c :: bytes => laneError p3 p2 p1 c = 0 ∧ Clean p2 p1 c bytes

theorem clean_append {p3 p2 p1 q3 q2 q1 : Byte} : ∀ {bytes rest : List Byte},
    Clean p3 p2 p1 (bytes ++ [q3, q2, q1] ++ rest) ↔ Clean p3 p2 p1 (bytes ++ [q3, q2, q1]) ∧ Clean q3 q2 q1 rest
  | [], rest => by simp [Clean, and_assoc]
  | c :: bytes, rest => by
    have ih := @clean_append p2 p1 c q3 q2 q1 bytes rest
    simp only [cons_append, Clean, ih, and_assoc]

theorem validateLanes_clean : ∀ (cur : List Byte) (p3 p2 p1 : Byte),
    (∀ x ∈ validateLanes ((p1 :: cur).take cur.length) ((p2 :: p1 :: cur).take cur.length)
      ((p3 :: p2 :: p1 :: cur).take cur.length) cur, x = 0) ↔ Clean p3 p2 p1 cur
  | [], _, _, _ => by simp [Clean, validateLanes, dynamicShuffle]
  | c :: cur, p3, p2, p1 => by
    have ih := validateLanes_clean cur p2 p1 c
    simp only [validateLanes, length_cons, take_succ_cons, map_cons, zipWith_cons_cons,
      dynamicShuffle, forall_mem_cons, Clean] at ih ⊢
    exact and_congr Iff.rfl ih

theorem extractVector_eq {width k : ℕ} {a b last : List Byte} (hlast : last.length = k)
    (ha : (a ++ last).length = width) : extractVector width (width - k) (a ++ last) b = (last ++ b).take width := by
  have hdrop : width - k = a.length := by
    rw [length_append] at ha
    omega
  rw [extractVector, hdrop, append_assoc, drop_left]

variable {simdSize : ℕ}

/-- A chunk has no error iff its bytes are clean behind the last three of the previous chunk. -/
theorem validateChunk_clean {cur prev : List Byte} {p3 p2 p1 : Byte} (hcur : cur.length = simdSize)
    (hprev : (prev ++ [p3, p2, p1]).length = simdSize) :
    (∀ x ∈ validateChunk simdSize cur (prev ++ [p3, p2, p1]), x = 0) ↔ Clean p3 p2 p1 cur := by
  have hprev1 : extractVector simdSize (simdSize - 1) (prev ++ [p3, p2, p1]) cur = (p1 :: cur).take simdSize := by
    rw [append_cons prev p3, append_cons _ p2] at hprev ⊢
    exact extractVector_eq rfl hprev
  have hprev2 : extractVector simdSize (simdSize - 2) (prev ++ [p3, p2, p1]) cur =
      (p2 :: p1 :: cur).take simdSize := by
    rw [append_cons prev p3] at hprev ⊢
    exact extractVector_eq rfl hprev
  have hprev3 : extractVector simdSize (simdSize - 3) (prev ++ [p3, p2, p1]) cur =
      (p3 :: p2 :: p1 :: cur).take simdSize := extractVector_eq rfl hprev
  rw [validateChunk, hprev1, hprev2, hprev3, ← hcur]
  exact validateLanes_clean cur p3 p2 p1

/-! ### The loop -/

theorem exists_last_three {block : List Byte} (h : 3 ≤ block.length) :
    ∃ init p3 p2 p1, block = init ++ [p3, p2, p1] := by
  have hlast : (block.drop (block.length - 3)).length = 3 := by
    rw [length_drop]
    omega
  obtain ⟨p3, p2, p1, hdrop⟩ := length_eq_three.mp hlast
  exact ⟨block.take (block.length - 3), p3, p2, p1, by rw [← hdrop, take_append_drop]⟩

theorem validateTail_clean {prev rest : List Byte} {p3 p2 p1 : Byte}
    (hprev : (prev ++ [p3, p2, p1]).length = simdSize) (hrest : rest.length < simdSize) :
    validateTail simdSize (prev ++ [p3, p2, p1]) rest = true ↔
      Clean p3 p2 p1 (rest ++ replicate (simdSize - rest.length) 0) := by
  have hcur : (rest ++ replicate (simdSize - rest.length) (0 : Byte)).length = simdSize := by
    rw [length_append, length_replicate]
    omega
  rw [← validateChunk_clean hcur hprev, validateTail]
  simp

/-- The loop accepts iff the string with some zeros behind it is clean. -/
theorem runtimeLoop_clean (hsize : 3 ≤ simdSize) : ∀ (fuel : ℕ) (prev rest : List Byte)
    (p3 p2 p1 : Byte), rest.length ≤ fuel → (prev ++ [p3, p2, p1]).length = simdSize →
      ∃ n, 0 < n ∧ (runtimeLoop simdSize fuel (prev ++ [p3, p2, p1]) rest = true ↔
        Clean p3 p2 p1 (rest ++ replicate n 0))
  | 0, prev, rest, p3, p2, p1, hfuel, hprev =>
    ⟨simdSize - rest.length, by omega, validateTail_clean hprev (by omega)⟩
  | fuel + 1, prev, rest, p3, p2, p1, hfuel, hprev => by
    rw [runtimeLoop]
    split_ifs with hfull
    case neg => exact ⟨simdSize - rest.length, by omega, validateTail_clean hprev (by omega)⟩
    have htake : (rest.take simdSize).length = simdSize := by
      rw [length_take]
      omega
    have hclean := validateChunk_clean htake hprev
    obtain ⟨init, q3, q2, q1, hblk⟩ := exists_last_three (htake.symm ▸ hsize)
    obtain ⟨n, hn, ih⟩ := runtimeLoop_clean hsize fuel init (rest.drop simdSize) q3 q2 q1
      (by rw [length_drop]; omega) (hblk ▸ htake)
    refine ⟨n, hn, ?_⟩
    have hspl : rest ++ replicate n 0 =
        init ++ [q3, q2, q1] ++ (rest.drop simdSize ++ replicate n 0) := by
      rw [← hblk, ← append_assoc, take_append_drop]
    rw [hspl, clean_append, ← ih, ← hblk, ← hclean]
    dsimp only
    split_ifs with herror
    · simp only [any_eq_true, decide_eq_true_eq] at herror
      obtain ⟨x, hx, hne⟩ := herror
      simp only [false_iff, not_and]
      exact fun hall => absurd (hall x hx) hne
    · simp only [any_eq_true, decide_eq_true_eq, not_exists, not_and, ne_eq, not_not] at herror
      exact (and_iff_right herror).symm

/-! ### What the tables say -/

theorem must23_eq (p3 p2 : Byte) :
    (subWithSaturation p2 (0b11100000 - 0x80) ||| subWithSaturation p3 (0b11110000 - 0x80)) &&& 0x80 =
      if 0xE0 ≤ p2 ∨ 0xF0 ≤ p3 then (0x80 : Byte) else 0 := by
  have hthird : ∀ p : Byte, subWithSaturation p (0b11100000 - 0x80) &&& 0x80 =
      if 0xE0 ≤ p then (0x80 : Byte) else 0 := by decide +kernel
  have hfourth : ∀ p : Byte, subWithSaturation p (0b11110000 - 0x80) &&& 0x80 =
      if 0xF0 ≤ p then (0x80 : Byte) else 0 := by decide +kernel
  rw [BitVec.and_comm, BitVec.and_or_distrib_left, BitVec.and_comm, hthird, BitVec.and_comm, hfourth]
  rcases Classical.em (0xE0 ≤ p2) with h2 | h2 <;> rcases Classical.em (0xF0 ≤ p3) with h3 | h3 <;>
    simp only [h2, h3, if_true, if_false, or_true, or_false] <;> rfl

variable {p3 p2 p1 c : Byte}

theorem laneError_eq_zero_iff : laneError p3 p2 p1 c = 0 ↔ sc p1 c = if 0xE0 ≤ p2 ∨ 0xF0 ≤ p3 then 0x80 else 0 := by
  rw [laneError, must23_eq]
  exact BitVec.xor_eq_zero_iff.trans eq_comm

def continuation : Byte × Byte := (0x80, 0xBF)

def seconds : List (Byte × Byte) := [continuation, (0xA0, 0xBF), (0x80, 0x9F), (0x90, 0xBF), (0x80, 0x8F)]

-- checked range by range: there are too many pairs of bytes to try
variable {r : Byte × Byte}

theorem forall_seconds {P : Byte × Byte → Prop} [DecidablePred P] (h : (seconds.all fun r => P r) = true)
    (hr : r ∈ seconds) : P r :=
  of_decide_eq_true (all_eq_true.mp h r hr)

/-- The rows of Table 3-7, by the length that the first byte announces. -/
theorem trailing_cases : ∀ p : Byte, (trailing p = none ∧ 0x80 ≤ p) ∨ (trailing p = some [] ∧ p < 0x80) ∨
      (∃ r ∈ seconds, trailing p = some [r] ∧ 0xC0 ≤ p ∧ p < 0xE0) ∨
      (∃ r ∈ seconds, trailing p = some [r, continuation] ∧ 0xE0 ≤ p ∧ p < 0xF0) ∨
      (∃ r ∈ seconds, trailing p = some [r, continuation, continuation] ∧ 0xF0 ≤ p) := by
  decide +kernel

/-- `sc` by the high nibble of the second byte. -/
def scNibble (p : Byte) (high : BitVec 4) : Byte :=
  shuf1.getD (p >>> 4).toNat 0 &&& shuf2.getD (p &&& 0x0F).toNat 0 &&& shuf3.getD high.toNat 0

/-- All ranges of a second byte begin and end with a high nibble. -/
def HighInRange (high : BitVec 4) (range : Byte × Byte) : Prop :=
  range.1.toNat / 16 ≤ high.toNat ∧ high.toNat ≤ range.2.toNat / 16

instance (high : BitVec 4) (range : Byte × Byte) : Decidable (HighInRange high range) :=
  inferInstanceAs (Decidable (_ ∧ _))

theorem scNibble_of_not_first : ∀ p : Byte, p < 0xC0 → ∀ high : BitVec 4,
    (scNibble p high = 0 ↔ ¬HighInRange high continuation) ∧
      (0x80 ≤ p → (scNibble p high = 0x80 ↔ HighInRange high continuation)) := by
  decide +kernel

theorem scNibble_of_first : ∀ p : Byte, 0xC0 ≤ p → ∀ high : BitVec 4,
    scNibble p high = 0 ↔ ∃ r ∈ ((trailing p).bind head?).toList, HighInRange high r := by
  decide +kernel

theorem sc_eq_scNibble (p c : Byte) : sc p c = scNibble p (c.extractLsb' 4 4) := by
  have hhigh : (c >>> 4).toNat = (c.extractLsb' 4 4).toNat := by
    simp [BitVec.extractLsb'_toNat, Nat.shiftRight_eq_div_pow]
    omega
  rw [sc, scNibble, hhigh]

theorem highInRange_iff (hr : r ∈ seconds) (c : Byte) : HighInRange (c.extractLsb' 4 4) r ↔ InRange c r := by
  have halign : r.1.toNat % 16 = 0 ∧ r.2.toNat % 16 = 15 :=
    forall_seconds (P := fun r => r.1.toNat % 16 = 0 ∧ r.2.toNat % 16 = 15) (by decide) hr
  rw [HighInRange, InRange, BitVec.le_def, BitVec.le_def, BitVec.extractLsb'_toNat, Nat.shiftRight_eq_div_pow]
  omega

theorem inRange_continuation_of_second (hr : r ∈ seconds) {c : Byte} (hc : InRange c r) : InRange c continuation := by
  have hr : 0x80 ≤ r.1 ∧ r.2 ≤ 0xBF := forall_seconds (P := fun r => 0x80 ≤ r.1 ∧ r.2 ≤ 0xBF) (by decide) hr
  rw [InRange, BitVec.le_def, BitVec.le_def]
  exact ⟨hr.1.trans hc.1, hc.2.trans hr.2⟩

/-! ### The scan is exact -/

/-- The bytes before a first byte: they do not announce one more. -/
structure Boundary (p3 p2 p1 : Byte) : Prop where
  first : p1 < 0xC0
  second : p2 < 0xE0
  third : p3 < 0xF0

theorem Boundary.next (hb : Boundary p3 p2 p1) (hc : c < 0x80) : Boundary p2 p1 c := by
  obtain ⟨h1, h2, -⟩ := hb
  exact ⟨BitVec.lt_def.mpr (hc.trans (by decide)), BitVec.lt_def.mpr (h1.trans (by decide)),
    BitVec.lt_def.mpr (h2.trans (by decide))⟩

/-- At a boundary everything but a continuation byte may stand. -/
theorem laneError_first (hb : Boundary p3 p2 p1) : laneError p3 p2 p1 c = 0 ↔ ¬InRange c continuation := by
  have hmust : ¬(0xE0 ≤ p2 ∨ 0xF0 ≤ p3) := by
    rintro (h | h)
    · exact absurd hb.second (BitVec.not_lt.mpr h)
    · exact absurd hb.third (BitVec.not_lt.mpr h)
  rw [laneError_eq_zero_iff, if_neg hmust, sc_eq_scNibble, ← highInRange_iff mem_cons_self]
  exact (scNibble_of_not_first p1 hb.first _).1

/-- Behind a first byte, a byte in the second range. -/
theorem laneError_second {p3 p2 p1 a c : Byte} (hb : Boundary p3 p2 p1) (ha : 0xC0 ≤ a) :
    laneError p2 p1 a c = 0 ↔ ∃ r ∈ ((trailing a).bind head?).toList, HighInRange (c.extractLsb' 4 4) r := by
  have hmust : ¬(0xE0 ≤ p1 ∨ 0xF0 ≤ p2) := by
    obtain ⟨h1, h2, -⟩ := hb
    rintro (h | h) <;> rw [BitVec.le_def] at h
    · exact absurd (h.trans_lt h1) (by decide)
    · exact absurd (h.trans_lt h2) (by decide)
  rw [laneError_eq_zero_iff, if_neg hmust, sc_eq_scNibble]
  exact scNibble_of_first a ha _

/-- Where a continuation byte is announced by the byte before the last or the one before that, one must stand. -/
theorem laneError_announced (hmust : 0xE0 ≤ p2 ∨ 0xF0 ≤ p3) (hp1 : InRange p1 continuation) :
    laneError p3 p2 p1 c = 0 ↔ InRange c continuation := by
  have hlt : p1 < 0xC0 := by
    have := hp1.2
    exact BitVec.lt_def.mpr (this.trans_lt (by decide))
  rw [laneError_eq_zero_iff, if_pos hmust, sc_eq_scNibble, ← highInRange_iff mem_cons_self]
  exact (scNibble_of_not_first p1 hlt _).2 hp1.1

theorem clean_zeros : ∀ (n : ℕ) {p3 p2 p1 : Byte}, Boundary p3 p2 p1 → Clean p3 p2 p1 (replicate n 0)
  | 0, _, _, _, _ => trivial
  | n + 1, _, _, _, hb =>
    ⟨(laneError_first hb).mpr (by decide), clean_zeros n (hb.next (by decide))⟩

variable {ranges : List (Byte × Byte)}

/-- One more byte that must lie in a range, of the string with zeros behind it. -/
theorem clean_byte_iff {n : ℕ} (hn : 0 < n) {p3 p2 p1 : Byte}
    {bytes : List Byte} {P : List Byte → Prop} (hzero : ¬InRange 0 r)
    (hlane : ∀ c, laneError p3 p2 p1 c = 0 ↔ InRange c r) (hrest : ∀ c rest, InRange c r → rest.length < bytes.length →
      (Clean p2 p1 c (rest ++ replicate n 0) ↔ ∃ left, strip ranges rest = some left ∧ P left)) :
    Clean p3 p2 p1 (bytes ++ replicate n 0) ↔ ∃ left, strip (r :: ranges) bytes = some left ∧ P left := by
  rcases bytes with _ | ⟨c, rest⟩
  · obtain ⟨m, rfl⟩ := Nat.exists_eq_succ_of_ne_zero hn.ne'
    simp only [nil_append, replicate_succ, Clean, hlane, hzero, false_and, strip, reduceCtorEq, exists_false]
  · simp only [cons_append, Clean, hlane, strip]
    by_cases hc : InRange c r
    · simp only [hc, true_and, if_true]
      exact hrest c rest hc (Nat.lt_succ_self _)
    · simp [hc]

theorem not_continuation_of_first {c : Byte} (hc : 0xC0 ≤ c) : ¬InRange c continuation := by
  simp only [InRange, continuation]
  bv_omega

theorem zero_not_second (hr : r ∈ seconds) : ¬InRange 0 r := forall_seconds (P := fun r => ¬InRange 0 r) (by decide) hr

/-- From a boundary on, the string with zeros behind it is clean iff it is well formed. -/
theorem clean_iff_wellFormed {n : ℕ} (hn : 0 < n) : ∀ (k : ℕ) (bytes : List Byte) {p3 p2 p1 : Byte},
    bytes.length ≤ k → Boundary p3 p2 p1 → (Clean p3 p2 p1 (bytes ++ replicate n 0) ↔ WellFormed bytes)
  | _, [], _, _, _, _, hb => iff_of_true (clean_zeros n hb) wellFormed_nil
  | 0, _ :: _, _, _, _, hlen, _ => by simp at hlen
  | k + 1, a :: bytes, p3, p2, p1, hlen, hb => by
    have hlen : bytes.length ≤ k := by simpa using hlen
    have ih : ∀ rest : List Byte, rest.length ≤ bytes.length → ∀ {q3 q2 q1 : Byte}, Boundary q3 q2 q1 →
        (Clean q3 q2 q1 (rest ++ replicate n 0) ↔ ∃ left, strip [] rest = some left ∧ WellFormed left) := by
      intro rest hrest q3 q2 q1 hq
      simpa [strip] using clean_iff_wellFormed hn k rest (hrest.trans hlen) hq
    have hfirst : ∀ {r ranges}, r ∈ seconds → trailing a = some (r :: ranges) → 0xC0 ≤ a →
        (∀ c rest, InRange c continuation → rest.length < bytes.length → (Clean p1 a c (rest ++ replicate n 0) ↔
          ∃ left, strip ranges rest = some left ∧ WellFormed left)) →
        (¬InRange a continuation ∧ Clean p2 p1 a (bytes ++ replicate n 0) ↔
          ∃ ranges rest, trailing a = some ranges ∧ strip ranges bytes = some rest ∧ WellFormed rest) := by
      intro r ranges hr ht ha hrest
      simp only [not_continuation_of_first ha, not_false_eq_true, true_and, ht, Option.some.injEq, exists_and_left,
        exists_eq_left']
      refine clean_byte_iff hn (zero_not_second hr) (fun c => ?_) fun c rest hc =>
        hrest c rest (inRange_continuation_of_second hr hc)
      rw [laneError_second hb ha, ht, ← highInRange_iff hr]
      simp
    obtain ⟨h1, h2, h3⟩ := hb
    rw [cons_append, Clean, laneError_first ⟨h1, h2, h3⟩, wellFormed_cons_iff]
    -- the cases are those of the lengths that the first byte announces
    rcases trailing_cases a with ⟨ht, ha⟩ | ⟨ht, ha⟩ | ⟨r, hr, ht, ha, hlt⟩ | ⟨r, hr, ht, ha, hlt⟩ | ⟨r, hr, ht, ha⟩
    · refine iff_of_false ?_ (by simp [ht])
      rintro ⟨hcont, hclean⟩
      have hfst : 0xC0 ≤ a := by
        simp only [InRange, continuation] at hcont
        bv_omega
      obtain ⟨c, rest, hcons⟩ := exists_cons_of_ne_nil
        (append_ne_nil_of_right_ne_nil bytes (by simpa using hn.ne' : replicate n (0 : Byte) ≠ []))
      rw [hcons, Clean, laneError_second ⟨h1, h2, h3⟩ hfst, ht] at hclean
      simpa using hclean.1
    · have hcont : ¬InRange a continuation := by
        simp only [InRange, continuation]
        bv_omega
      simp only [hcont, not_false_eq_true, true_and, ht, Option.some.injEq, exists_and_left, exists_eq_left']
      exact ih bytes le_rfl (Boundary.next ⟨h1, h2, h3⟩ ha)
    · refine hfirst hr ht ha fun c rest hc hrest => ?_
      simp only [InRange, continuation] at hc
      exact ih rest hrest.le ⟨by bv_omega, by bv_omega, by bv_omega⟩
    · refine hfirst hr ht (by bv_omega) fun c rest hc hrest => clean_byte_iff hn (zero_not_second mem_cons_self)
        (fun d => laneError_announced (.inl ha) hc) fun d rest' hd hrest' => ?_
      simp only [InRange, continuation] at hc hd
      exact ih rest' (hrest'.trans hrest).le ⟨by bv_omega, by bv_omega, by bv_omega⟩
    · refine hfirst hr ht (by bv_omega) fun c rest hc hrest => clean_byte_iff hn (zero_not_second mem_cons_self)
        (fun d => laneError_announced (.inl (by bv_omega)) hc) fun d rest' hd hrest' =>
          clean_byte_iff hn (zero_not_second mem_cons_self) (fun e => laneError_announced (.inr ha) hd)
            fun e rest'' he hrest'' => ?_
      simp only [InRange, continuation] at hc hd he
      exact ih rest'' (hrest''.trans (hrest'.trans hrest)).le ⟨by bv_omega, by bv_omega, by bv_omega⟩

theorem isValidUtf8Runtime_iff (hsize : 3 ≤ simdSize) (span : List Byte) :
    isValidUtf8Runtime simdSize span = true ↔ WellFormed span := by
  have hprev : replicate simdSize (0 : Byte) = replicate (simdSize - 3) 0 ++ [0, 0, 0] := by
    have hspl := replicate_append_replicate (n := simdSize - 3) (m := 3) (a := (0 : Byte))
    rw [Nat.sub_add_cancel hsize] at hspl
    exact hspl.symm
  rw [isValidUtf8Runtime, hprev]
  obtain ⟨n, hn, h⟩ := runtimeLoop_clean hsize span.length (replicate (simdSize - 3) 0) span 0 0 0 le_rfl
    (by simp; omega)
  exact h.trans (clean_iff_wellFormed hn span.length span le_rfl ⟨by decide, by decide, by decide⟩)

/-! ### The scalar version -/

/-- `_is_utf8_continuation_byte`: the byte as a signed one is below -64. -/
def isUtf8ContinuationByte (b : Byte) : Bool := b.toInt < -(0b10000000 >>> 1)

def utf8ByteType (b : Byte) : ℕ := (~~~b).clz.toNat

/-- The special unicode ranges. -/
def outOfSpecialRange (b0 b1 : Byte) : Bool :=
  (b0 = 0xE0 && b1 < 0xA0) || (b0 = 0xED && b1 > 0x9F) || (b0 = 0xF0 && b1 < 0x90) || (b0 = 0xF4 && b1 > 0x8F)

/-- The loop of `_is_valid_utf8_comptime`, on the bytes that are left; it takes at least one at each turn. -/
def comptimeLoop : ℕ → List Byte → Bool
  | _, [] => true
  | 0, _ :: _ => false
  | fuel + 1, b0 :: tail =>
    if b0 > 0b11110100 then false
    else
      let byteType := utf8ByteType b0
      if byteType = 0 then comptimeLoop fuel tail
      else if byteType = 1 then false
      else if (range' 1 (byteType - 1)).any fun i =>
          (b0 :: tail).length ≤ i || !isUtf8ContinuationByte ((b0 :: tail).getD i 0) then false
      else if byteType = 2 ∧ b0 < 0b11000010 then false
      else if outOfSpecialRange b0 ((b0 :: tail).getD 1 0) then false
      else comptimeLoop fuel ((b0 :: tail).drop byteType)

def isValidUtf8Comptime (span : List Byte) : Bool := comptimeLoop span.length span

theorem isUtf8ContinuationByte_iff : ∀ b : Byte, isUtf8ContinuationByte b = true ↔ InRange b continuation := by
  decide +kernel

theorem comptime_of_trailing_none : ∀ b : Byte, trailing b = none →
    b > 0b11110100 ∨ utf8ByteType b = 1 ∨ (utf8ByteType b = 2 ∧ b < 0b11000010) := by
  decide +kernel

theorem comptime_of_trailing_nil : ∀ b : Byte, trailing b = some [] → ¬b > 0b11110100 ∧ utf8ByteType b = 0 := by
  decide +kernel

theorem comptime_of_trailing_cons {b : Byte} (ht : trailing b = some (r :: ranges)) :
    ¬b > 0b11110100 ∧ utf8ByteType b = ranges.length + 2 ∧ ¬(utf8ByteType b = 2 ∧ b < 0b11000010) ∧
      ranges = replicate ranges.length continuation := by
  have h : ∀ b : Byte, ∀ ranges ∈ (trailing b).toList, ranges ≠ [] →
      ¬b > 0b11110100 ∧ utf8ByteType b = ranges.tail.length + 2 ∧ ¬(utf8ByteType b = 2 ∧ b < 0b11000010) ∧
        ranges.tail = replicate ranges.tail.length continuation := by
    decide +kernel
  exact h b (r :: ranges) (by rw [ht]; exact mem_singleton.mpr rfl) (cons_ne_nil _ _)

theorem outOfSpecialRange_iff {b0 b1 : Byte} (ht : trailing b0 = some (r :: ranges)) (hb1 : InRange b1 continuation) :
    outOfSpecialRange b0 b1 = false ↔ InRange b1 r := by
  obtain ⟨range, hrow, hb0⟩ := row_of_trailing ht
  simp only [table37, mem_cons, cons.injEq, reduceCtorEq, and_false, not_mem_nil, or_false, false_or] at hrow
  simp only [InRange, continuation] at hb0 hb1 ⊢
  rcases hrow with ⟨rfl, rfl, -⟩ | ⟨rfl, rfl, -⟩ | ⟨rfl, rfl, -⟩ | ⟨rfl, rfl, -⟩ | ⟨rfl, rfl, -⟩ | ⟨rfl, rfl, -⟩ |
    ⟨rfl, rfl, -⟩ | ⟨rfl, rfl, -⟩ <;>
    simp only [outOfSpecialRange, Bool.or_eq_false_iff, Bool.and_eq_false_iff, decide_eq_false_iff_not] <;> bv_omega

theorem eq_drop_of_strip {bytes rest : List Byte}
    (h : strip ranges bytes = some rest) : rest = bytes.drop ranges.length := by
  obtain ⟨s, hs, rfl⟩ := strip_eq_some_iff.mp h
  rw [← hs.length_eq, drop_left]

theorem continuations_iff : ∀ (k : ℕ) (b0 : Byte) (tail : List Byte), ((range' 1 k).any fun i =>
    (b0 :: tail).length ≤ i || !isUtf8ContinuationByte ((b0 :: tail).getD i 0)) = false ↔
      ∃ left, strip (replicate k continuation) tail = some left
  | 0, _, tail => by simp [strip]
  | k + 1, b0, [] => by simp [replicate_succ, strip, range'_succ]
  | k + 1, b0, b :: tail => by
    have ih := continuations_iff k b tail
    have hb := isUtf8ContinuationByte_iff b
    rw [range'_succ, any_cons, ← map_add_range' 1, any_map, replicate_succ, strip, Bool.or_eq_false_iff]
    have hshift : ((fun i => decide ((b0 :: b :: tail).length ≤ i) ||
        !isUtf8ContinuationByte ((b0 :: b :: tail).getD i 0)) ∘ (1 + ·)) =
        fun i => (b :: tail).length ≤ i || !isUtf8ContinuationByte ((b :: tail).getD i 0) := by
      funext i
      simp [Nat.add_comm 1 i]
    rw [hshift, ih]
    split_ifs with hc <;> simp [hb, hc]

theorem mem_seconds_of_trailing {b : Byte} (ht : trailing b = some (r :: ranges)) : r ∈ seconds := by
  have h : (table37.all fun row => row.tail.all fun r => r ∈ seconds) = true := by decide
  obtain ⟨range, hrow, -⟩ := row_of_trailing ht
  exact of_decide_eq_true (all_eq_true.mp (all_eq_true.mp h _ hrow) r mem_cons_self)

theorem comptimeLoop_iff : ∀ (fuel : ℕ) (bytes : List Byte), bytes.length ≤ fuel →
    (comptimeLoop fuel bytes = true ↔ WellFormed bytes)
  | _, [], _ => by simp [comptimeLoop, wellFormed_nil]
  | 0, _ :: _, hlen => by simp at hlen
  | fuel + 1, b0 :: tail, hlen => by
    have hlen : tail.length ≤ fuel := by simpa using hlen
    rw [comptimeLoop, wellFormed_cons_iff]
    dsimp only
    rcases ht : trailing b0 with _ | _ | ⟨r, ranges⟩
    · refine iff_of_false ?_ (by simp)
      rcases comptime_of_trailing_none b0 ht with h | h | h <;> split_ifs <;> simp_all
    · obtain ⟨hle, htype⟩ := comptime_of_trailing_nil b0 ht
      rw [if_neg hle, if_pos htype]
      simpa [strip] using comptimeLoop_iff fuel tail hlen
    · obtain ⟨hle, htype, hshort, hranges⟩ := comptime_of_trailing_cons ht
      have hinner := continuations_iff (ranges.length + 1) b0 tail
      rw [replicate_succ, ← hranges] at hinner
      rw [if_neg hle, if_neg (by omega), if_neg (by omega), if_neg hshort, htype]
      simp only [Option.some.injEq, exists_and_left, exists_eq_left']
      rcases tail with _ | ⟨b1, tail⟩
      · grind [strip]
      have hloop : ∀ left, strip ranges tail = some left →
          (comptimeLoop fuel ((b0 :: b1 :: tail).drop (ranges.length + 2)) = true ↔ WellFormed left) := by
        intro left hleft
        have hshorter := length_le_of_strip hleft
        rw [length_cons] at hlen
        rw [drop_succ_cons, drop_succ_cons, ← eq_drop_of_strip hleft]
        exact comptimeLoop_iff fuel left (by omega)
      have hcont := @inRange_continuation_of_second r (mem_seconds_of_trailing ht) b1
      have hspec := @outOfSpecialRange_iff r ranges b0 b1 ht
      rw [strip] at hinner ⊢
      grind

/-- **Validation is exact**: at every vector width the string is accepted iff it is well formed, and the
    scalar version gives the same answer. -/
theorem validation_exact (e : ℕ) (he : 16 ≤ 2 ^ e) (span : List Byte) :
    (isValidUtf8Runtime (2 ^ e) span = true ↔ WellFormed span) ∧
      isValidUtf8Comptime span = isValidUtf8Runtime (2 ^ e) span := by
  have hruntime := isValidUtf8Runtime_iff (le_trans (by decide) he) span
  have hcomptime := comptimeLoop_iff span.length span le_rfl
  exact ⟨hruntime, Bool.eq_iff_iff.mpr (hcomptime.trans hruntime.symm)⟩

/-- `"€"` is accepted, and its first two bytes alone are not. -/
theorem validation_exact_truncated :
    isValidUtf8Runtime (2 ^ 4) [0xE2, 0x82, 0xAC] = true ∧ isValidUtf8Runtime (2 ^ 4) [0xE2, 0x82] = false := by
  refine ⟨(validation_exact 4 (by decide) _).1.mpr ?_, ?_⟩
  · exact wellFormed_cons_iff.mpr ⟨[(0x80, 0xBF), (0x80, 0xBF)], [], by decide, by decide, wellFormed_nil⟩
  · decide +kernel

end MojoProse.Stdlib.Utf8
