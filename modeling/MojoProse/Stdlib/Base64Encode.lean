import Mathlib.Tactic.IntervalCases
import MojoProse.Stdlib.Base64

/-! `b64encode` (`_b64encode.mojo`) computes the RFC 4648 encoding, and `b64decode` reads it back.

    A vector register is the list of its lanes. The three widths of the target machines are 16, 32 and
    64 lanes; each vector of `w` lanes encodes the first `3 * w / 4` of them. -/

namespace MojoProse.Stdlib.Base64

open List Nat Schemes

/-- The mask of the shuffle in `_6bit_to_byte`. -/
def indices (width : ℕ) : List ℕ :=
  (range (width / 4)).flatMap fun i => [1, 0, 2, 1].map fun perm => 3 * i + perm

def shuffle (input : List Byte) (mask : List ℕ) : List Byte := mask.map fun i => input.getD i 0

/-- `_repeat_until`: `v` is joined with itself until it is `width` long. -/
def repeatUntil (width : ℕ) : ℕ → List Byte → List Byte
  | 0, v => v
  | fuel + 1, v => if v.length = width then v else repeatUntil width fuel (v ++ v)

/-- `rotate_bits_right` on a 16-bit lane. -/
def rotateBitsRight (shift : ℤ) (x : BitVec 16) : BitVec 16 :=
  if shift = 0 then x
  else if shift < 0 then x.rotateLeft (-shift).toNat
  else x.rotateRight shift.toNat

/-- `_rshift_bits_in_u16`: two neighbouring bytes are one 16-bit lane, the low byte first. -/
def rshiftBitsInU16 (shift : ℤ) : List Byte → List Byte
  | lo :: hi :: rest =>
    let u16 := rotateBitsRight shift (hi.setWidth 16 <<< 8 ||| lo.setWidth 16)
    u16.setWidth 8 :: (u16 >>> 8).setWidth 8 :: rshiftBitsInU16 shift rest
  | rest => rest

/-- `combine` in `_6bit_to_byte`. -/
def combine (width : ℕ) (mask : List Byte) (shift : ℤ) (shuffled : List Byte) : List Byte :=
  rshiftBitsInU16 shift (zipWith (· &&& ·) shuffled (repeatUntil width width mask))

/-- `_6bit_to_byte`. -/
def sixBitToByte (width : ℕ) (input : List Byte) : List Byte :=
  let shuffled := shuffle input (indices width)
  let a := combine width [0b00000000, 0b11111100, 0b00000000, 0b00000000] 10 shuffled
  let b := combine width [0b11110000, 0b00000011, 0b00000000, 0b00000000] (-4) shuffled
  let c := combine width [0b00000000, 0b00000000, 0b11000000, 0b00001111] 6 shuffled
  let d := combine width [0b00000000, 0b00000000, 0b00111111, 0b00000000] 8 shuffled
  zipWith (· ||| ·) (zipWith (· ||| ·) (zipWith (· ||| ·) a b) c) d

/-- `OFFSETS`. -/
def offsets : List Byte := [71, -4, -4, -4, -4, -4, -4, -4, -4, -4, -4, -19, -16, 65, 0, 0]

/-- `_sub_with_saturation`, on one lane. -/
def subWithSaturation (a b : Byte) : Byte := if a < b then 0 else a - b

/-- One lane of `_to_b64_ascii`. -/
def toAscii (v : Byte) : Byte :=
  let offsetIndex : Byte := if 25 < v then subWithSaturation v 51 else 13
  v + offsets.getD offsetIndex.toNat 0

def toB64Ascii (width : ℕ) (input : List Byte) : List Byte := (sixBitToByte width input).map toAscii

/-- The entry at `i` of `_get_table_number_of_bytes_to_store_from_number_of_bytes_to_load`. -/
def numberOfBytesToStore (i : ℕ) : ℕ :=
  let groupOf3Bytes := if i % 3 ≠ 0 then i / 3 + 1 else i / 3
  (BitVec.ofNat 8 (groupOf3Bytes * 4)).toNat

/-- The entry at `i` of `_get_table_number_of_bytes_to_store_from_number_of_bytes_to_load_without_equal_sign`. -/
def numberOfBytesToStoreWithoutEqualSign (i : ℕ) : ℕ :=
  let completeGroupsOf6Bits := i * 8 / 6
  let incompleteGroupsOf6Bits := if i * 8 % 6 = 0 then 0 else 1
  (BitVec.ofNat 8 (completeGroupsOf6Bits + incompleteGroupsOf6Bits)).toNat

def loadIncompleteSimd (width : ℕ) (input : List Byte) (nbOfElementsToLoad : ℕ) : List Byte :=
  input.take nbOfElementsToLoad ++ replicate (width - nbOfElementsToLoad) 0

/-- Lane `i` keeps its character if `_base64_simd_mask` selects it, and is `=` otherwise. -/
def placeEquals (resultVector : List Byte) (nonEqualCharsNumber : ℕ) : List Byte :=
  resultVector.mapIdx fun i char =>
    if BitVec.ofNat 8 i < BitVec.ofNat 8 nonEqualCharsNumber then char else pad

/-- The main loop of `_b64encode`: what is left of the input, and what is stored. -/
def encodeMain (width : ℕ) : ℕ → List Byte → List Byte → List Byte × List Byte
  | 0, input, result => (input, result)
  | fuel + 1, input, result =>
    if width ≤ input.length then
      encodeMain width fuel (input.drop (width * 3 / 4)) (result ++ toB64Ascii width (input.take width))
    else (input, result)

/-- What the loop for the last chunks stores for one of them. -/
def encodeChunk (width : ℕ) (input : List Byte) : List Byte :=
  let nbOfElementsToLoad := min (width * 3 / 4) input.length
  let resultVector := toB64Ascii width (loadIncompleteSimd width input nbOfElementsToLoad)
  let nonEqualCharsNumber := numberOfBytesToStoreWithoutEqualSign nbOfElementsToLoad
  (placeEquals resultVector nonEqualCharsNumber).take (numberOfBytesToStore nbOfElementsToLoad)

def encodeTail (width : ℕ) : ℕ → List Byte → List Byte → List Byte
  | 0, _, result => result
  | fuel + 1, input, result =>
    if 0 < input.length then
      encodeTail width fuel (input.drop (width * 3 / 4)) (result ++ encodeChunk width input)
    else result

/-- `_b64encode`. Both loops advance at every turn, so that the length of the input bounds them. -/
def b64encode (width : ℕ) (inputBytes : List Byte) : List Byte :=
  let (input, result) := encodeMain width inputBytes.length inputBytes []
  encodeTail width input.length input result

/-- Table 1 of the RFC. -/
def alphabet : List Byte :=
  (range' 0x41 26 ++ range' 0x61 26 ++ range' 0x30 10 ++ [0x2B, 0x2F]).map (BitVec.ofNat 8)

/-- The four 6-bit groups of three bytes, from the first bit on. -/
def sextets (x y z : Byte) : List (BitVec 6) :=
  let bits := x.setWidth 24 <<< 16 ||| y.setWidth 24 <<< 8 ||| z.setWidth 24
  [bits.extractLsb' 18 6, bits.extractLsb' 12 6, bits.extractLsb' 6 6, bits.extractLsb' 0 6]

def encoded (v : BitVec 6) : Byte := alphabet.getD v.toNat 0

def quantum (x y z : Byte) : List Byte := (sextets x y z).map encoded

/-- A last quantum of less than 24 bits is filled up with zero bits; the characters that carry none of its bits are `=`.
    -/
def rfc4648 : List Byte → List Byte
  | x :: y :: z :: rest => quantum x y z ++ rfc4648 rest
  | [x, y] => (quantum x y 0).take 3 ++ [pad]
  | [x] => (quantum x 0 0).take 2 ++ [pad, pad]
  | [] => []

theorem toAscii_sextet : toAscii ∘ BitVec.setWidth 8 = encoded := by
  have h : ∀ v : BitVec 6, toAscii (v.setWidth 8) = encoded v := by decide +kernel
  exact funext h

theorem asciiToValue_encoded : ∀ v : BitVec 6,
    asciiToValue (encoded v) = .ok (v.setWidth 8) ∧ encoded v ≠ pad ∧ isAsciiWhitespace (encoded v) = false := by
  decide +kernel

/-- The lanes that three bytes become in `_6bit_to_byte`. -/
theorem sextets_eq (x y z : Byte) : (sextets x y z).map (BitVec.setWidth 8) =
      [x >>> 2, (x &&& 3) <<< 4 ||| y >>> 4, (y &&& 15) <<< 2 ||| z >>> 6, z &&& 63] := by
  simp only [sextets, map_cons, map_nil, cons.injEq, and_true]
  refine ⟨?_, ?_, ?_, ?_⟩ <;> ext i hi <;> interval_cases i <;> simp

/-- `combine` on the four lanes of one quantum. -/
def combineQuantum (mask : List Byte) (shift : ℤ) (x y z : Byte) : List Byte :=
  rshiftBitsInU16 shift (zipWith (· &&& ·) [y, x, z, y] mask)

/-- Each of the four masks and shifts gives one lane of the quantum and clears the others. -/
theorem combineQuantum_lanes (x y z : Byte) :
    combineQuantum [0b00000000, 0b11111100, 0b00000000, 0b00000000] 10 x y z = [x >>> 2, 0, 0, 0] ∧
    combineQuantum [0b11110000, 0b00000011, 0b00000000, 0b00000000] (-4) x y z =
      [(0 : Byte), (x &&& 3) <<< 4 ||| y >>> 4, 0, 0] ∧
    combineQuantum [0b00000000, 0b00000000, 0b11000000, 0b00001111] 6 x y z =
      [(0 : Byte), 0, (y &&& 15) <<< 2 ||| z >>> 6, 0] ∧
    combineQuantum [0b00000000, 0b00000000, 0b00111111, 0b00000000] 8 x y z = [0, 0, 0, z &&& 63] := by
  simp only [combineQuantum, rshiftBitsInU16, zipWith_cons_cons, zipWith_nil_left, rotateBitsRight,
    cons.injEq, and_true]
  refine ⟨⟨?_, ?_, ?_, ?_⟩, ⟨?_, ?_, ?_, ?_⟩, ⟨?_, ?_, ?_, ?_⟩, ?_, ?_, ?_, ?_⟩ <;>
    ext i hi <;> interval_cases i <;> simp

/-- The quantum that a vector holds at `i`. -/
def quantumAt (f : Byte → Byte → Byte → List Byte) (input : List Byte) (i : ℕ) : List Byte :=
  f (input.getD (3 * i) 0) (input.getD (3 * i + 1) 0) (input.getD (3 * i + 2) 0)

theorem shuffle_indices (width : ℕ) (input : List Byte) : shuffle input (indices width) =
      (range (width / 4)).flatMap (quantumAt (fun x y z => [y, x, z, y]) input) := by
  rw [shuffle, indices, map_flatMap]
  rfl

variable {width : ℕ}

theorem repeatUntil_mask (hw : width ∈ [16, 32, 64]) (a b c d : Byte) :
    repeatUntil width width [a, b, c, d] = (replicate (width / 4) [a, b, c, d]).flatten := by
  simp only [mem_cons, not_mem_nil, or_false] at hw
  rcases hw with rfl | rfl | rfl <;> rfl

theorem combine_quanta (a b c d : Byte) (shift : ℤ) (input : List Byte) : ∀ is : List ℕ,
    rshiftBitsInU16 shift (zipWith (· &&& ·) (is.flatMap (quantumAt (fun x y z => [y, x, z, y]) input))
        (replicate is.length [a, b, c, d]).flatten) = is.flatMap (quantumAt (combineQuantum [a, b, c, d] shift) input)
  | [] => rfl
  | i :: is => by
    have ih := combine_quanta a b c d shift input is
    rw [flatMap_cons, length_cons, replicate_succ, flatten_cons, flatMap_cons, ← ih]
    rfl

theorem combine_eq (hw : width ∈ [16, 32, 64]) (a b c d : Byte) (shift : ℤ) (input : List Byte) :
    combine width [a, b, c, d] shift (shuffle input (indices width)) =
      (range (width / 4)).flatMap (quantumAt (combineQuantum [a, b, c, d] shift) input) := by
  rw [combine, repeatUntil_mask hw, shuffle_indices, ← combine_quanta, length_range]

theorem zipWith_flatMap {α β : Type*} (op : β → β → β) (f g : α → List β) :
    ∀ l : List α, (∀ a ∈ l, (f a).length = (g a).length) →
      zipWith op (l.flatMap f) (l.flatMap g) = l.flatMap fun a => zipWith op (f a) (g a)
  | [], _ => rfl
  | a :: l, h => by
    rw [flatMap_cons, flatMap_cons, flatMap_cons, zipWith_append (h a mem_cons_self),
      zipWith_flatMap op f g l fun b hb => h b (mem_cons_of_mem a hb)]

/-- The first `k` quanta that a vector holds, encoded. -/
def quanta (k : ℕ) (input : List Byte) : List Byte := (range k).flatMap (quantumAt quantum input)

theorem toB64Ascii_eq (hw : width ∈ [16, 32, 64]) (input : List Byte) :
    toB64Ascii width input = quanta (width / 4) input := by
  simp only [toB64Ascii, sixBitToByte, combine_eq hw]
  rw [zipWith_flatMap, zipWith_flatMap, zipWith_flatMap, map_flatMap]
  · congr 1
    funext i
    simp only [quantumAt, combineQuantum_lanes]
    generalize input.getD (3 * i) 0 = x, input.getD (3 * i + 1) 0 = y, input.getD (3 * i + 2) 0 = z
    have hsextets := congrArg (map toAscii) (sextets_eq x y z)
    rw [quantum, ← toAscii_sextet]
    simpa using hsextets.symm
  · intro i _
    rfl
  · intro i _
    rfl
  · intro i _
    rfl

theorem quanta_congr {k : ℕ} {l l' : List Byte} (h : ∀ j < 3 * k, l.getD j 0 = l'.getD j 0) :
    quanta k l = quanta k l' := by
  refine flatMap_congr fun i hi => ?_
  have hi : i < k := mem_range.mp hi
  rw [quantumAt, quantumAt, h (3 * i) (by omega), h (3 * i + 1) (by omega), h (3 * i + 2) (by omega)]

theorem quanta_succ (k : ℕ) (l : List Byte) : quanta (k + 1) l = quantumAt quantum l 0 ++ quanta k (l.drop 3) := by
  have hshift : ∀ i, quantumAt quantum l (i + 1) = quantumAt quantum (l.drop 3) i := by
    intro i
    have hat : ∀ j, (l.drop 3).getD j 0 = l.getD (j + 3) 0 := fun j => by
      rw [getD_eq_getElem?_getD, getElem?_drop, add_comm, ← getD_eq_getElem?_getD]
    rw [quantumAt, quantumAt, hat, hat, hat]
    rfl
  rw [quanta, range_succ_eq_map, flatMap_cons, flatMap_map, quanta]
  simp [hshift]

theorem length_quanta (l : List Byte) : ∀ k, (quanta k l).length = 4 * k
  | 0 => rfl
  | k + 1 => by
    rw [quanta_succ, length_append, length_quanta (l.drop 3) k]
    exact add_comm 4 (4 * k)

/-- How many characters carry bits of `n` bytes. -/
def carrying (n : ℕ) : ℕ := (8 * n + 5) / 6

/-- The encoding from its quanta: what carries no bits of the data is `=`. -/
theorem rfc4648_eq_quanta : ∀ (l : List Byte) (k : ℕ), l.length ≤ 3 * k →
    rfc4648 l = (quanta k l).take (carrying l.length) ++ replicate (4 * ((l.length + 2) / 3) - carrying l.length) pad
  | x :: y :: z :: rest, 0, h => by simp at h
  | x :: y :: z :: rest, k + 1, h => by
    have hcarrying : carrying (rest.length + 3) = carrying rest.length + 4 := by
      rw [carrying, carrying]
      omega
    have hstored : 4 * ((rest.length + 3 + 2) / 3) = 4 * ((rest.length + 2) / 3) + 4 := by omega
    have hquant : quantumAt quantum (x :: y :: z :: rest) 0 = quantum x y z := rfl
    have ih := rfc4648_eq_quanta rest k (by simp only [length_cons] at h; omega)
    have htake : (quantum x y z).take (carrying rest.length + 4) = quantum x y z :=
      take_of_length_le (le_add_left 4 _)
    have hfour : (quantum x y z).length = 4 := rfl
    rw [rfc4648, ih, quanta_succ, hquant, length_cons, length_cons, length_cons, hcarrying,
      hstored, Nat.add_sub_add_right, take_append, htake, hfour, Nat.add_sub_cancel, append_assoc]
    rfl
  | [x, y], 0, h => by simp at h
  | [x, y], k + 1, _ => by
    have hquant : quantumAt quantum [x, y] 0 = quantum x y 0 := rfl
    rw [quanta_succ, hquant]
    simp [rfc4648, quantum, sextets, carrying]
  | [x], 0, h => by simp at h
  | [x], k + 1, _ => by
    have hquant : quantumAt quantum [x] 0 = quantum x 0 0 := rfl
    rw [quanta_succ, hquant]
    simp [rfc4648, quantum, sextets, carrying]
  | [], k, _ => rfl

theorem rfc4648_append : ∀ (a b : List Byte), a.length % 3 = 0 → rfc4648 (a ++ b) = rfc4648 a ++ rfc4648 b
  | x :: y :: z :: rest, b, h => by
    have h : rest.length % 3 = 0 := by
      simp only [length_cons] at h
      omega
    rw [cons_append, cons_append, cons_append, rfc4648, rfc4648_append rest b h, rfc4648, append_assoc]
  | [x, y], b, h => by simp at h
  | [x], b, h => by simp at h
  | [], b, _ => rfl

theorem placeEquals_eq {v : List Byte} {n : ℕ} (hv : v.length ≤ 64) (hn : n ≤ v.length) :
    placeEquals v n = v.take n ++ replicate (v.length - n) pad := by
  refine ext_getElem (by simp [placeEquals, hn]) fun i hi _ => ?_
  have hi : i < v.length := by simpa [placeEquals] using hi
  have hlt : BitVec.ofNat 8 i < BitVec.ofNat 8 n ↔ i < n := by
    rw [BitVec.lt_def, BitVec.toNat_ofNat, BitVec.toNat_ofNat]
    omega
  simp only [placeEquals, getElem_mapIdx, hlt, getElem_append, length_take, min_eq_left hn]
  rcases lt_or_ge i n with h | h
  · simp [h]
  · simp [not_lt.mpr h]

theorem getD_take_of_lt {l : List Byte} {n j : ℕ} (h : j < n) : (l.take n).getD j 0 = l.getD j 0 := by
  rw [getD_eq_getElem?_getD, getElem?_take_of_lt h, ← getD_eq_getElem?_getD]

theorem getD_append_zeros (l : List Byte) (m j : ℕ) : (l ++ replicate m 0).getD j 0 = l.getD j 0 := by
  rw [getD_eq_getElem?_getD, getD_eq_getElem?_getD]
  rcases lt_or_ge j l.length with h | h
  · rw [getElem?_append_left h]
  · rw [getElem?_append_right h, getElem?_eq_none h, getElem?_replicate]
    split_ifs <;> rfl

theorem tables_eq {n : ℕ} (h : n ≤ 64) :
    numberOfBytesToStore n = 4 * ((n + 2) / 3) ∧ numberOfBytesToStoreWithoutEqualSign n = carrying n := by
  interval_cases n <;> exact ⟨rfl, rfl⟩

section
variable (hw : width ∈ [16, 32, 64])
include hw

theorem width_eq : width = 4 * (width / 4) ∧ width * 3 / 4 = 3 * (width / 4) ∧ width ≤ 64 ∧ 0 < width / 4 := by
  simp only [mem_cons, not_mem_nil, or_false] at hw
  omega

theorem toB64Ascii_take {input : List Byte} (h : width ≤ input.length) :
    toB64Ascii width (input.take width) = rfc4648 (input.take (width * 3 / 4)) := by
  obtain ⟨hfour, hthree, -, hpos⟩ := width_eq hw
  have hlen : (input.take (3 * (width / 4))).length = 3 * (width / 4) := by
    rw [length_take]
    omega
  have hsame : quanta (width / 4) (input.take width) = quanta (width / 4) (input.take (3 * (width / 4))) :=
    quanta_congr fun j hj => by rw [getD_take_of_lt (by omega), getD_take_of_lt hj]
  have hall : carrying (3 * (width / 4)) = 4 * (width / 4) := by
    rw [carrying]
    omega
  rw [toB64Ascii_eq hw, hsame, hthree, rfc4648_eq_quanta _ (width / 4) hlen.le, hlen, hall,
    take_of_length_le (length_quanta _ _).le]
  have hnone : 4 * ((3 * (width / 4) + 2) / 3) - 4 * (width / 4) = 0 := by omega
  rw [hnone, replicate_zero, append_nil]

theorem encodeChunk_eq (input : List Byte) : encodeChunk width input = rfc4648 (input.take (width * 3 / 4)) := by
  obtain ⟨hfour, hthree, hle, hpos⟩ := width_eq hw
  have hlen : (input.take (width * 3 / 4)).length = min (width * 3 / 4) input.length := length_take
  have hsame : quanta (width / 4) (loadIncompleteSimd width input (min (width * 3 / 4) input.length)) =
      quanta (width / 4) (input.take (width * 3 / 4)) :=
    quanta_congr fun j _ => by rw [loadIncompleteSimd, getD_append_zeros, ← take_eq_take_min]
  obtain ⟨hstored, hcarrying⟩ := tables_eq (n := min (width * 3 / 4) input.length) (by omega)
  have hchars : carrying (min (width * 3 / 4) input.length) ≤ 4 * (width / 4) ∧
      carrying (min (width * 3 / 4) input.length) ≤ 4 * ((min (width * 3 / 4) input.length + 2) / 3) ∧
      4 * ((min (width * 3 / 4) input.length + 2) / 3) ≤ 4 * (width / 4) := by
    rw [carrying]
    omega
  have hquanta := length_quanta (input.take (width * 3 / 4)) (width / 4)
  rw [encodeChunk, toB64Ascii_eq hw, hsame, hstored, hcarrying, placeEquals_eq (by omega) (by omega),
    rfc4648_eq_quanta _ (width / 4) (by omega), hlen, hquanta]
  generalize carrying (min (width * 3 / 4) input.length) = n at hchars ⊢
  rw [take_append, take_take, length_take, hquanta, take_replicate,
    min_eq_right hchars.2.1, min_eq_left hchars.1, min_eq_left (by omega)]

/-- A chunk of whole quanta, or of all there is, is encoded on its own. -/
theorem rfc4648_take_drop (input : List Byte) :
    rfc4648 (input.take (width * 3 / 4)) ++ rfc4648 (input.drop (width * 3 / 4)) = rfc4648 input := by
  obtain ⟨-, hthree, -⟩ := width_eq hw
  rcases lt_or_ge input.length (width * 3 / 4) with hshort | hlong
  · rw [take_of_length_le hshort.le, drop_of_length_le hshort.le]
    exact append_nil _
  · rw [← rfc4648_append _ _ (by rw [length_take]; omega), take_append_drop]

end

theorem encodeMain_eq (hw : width ∈ [16, 32, 64]) : ∀ (fuel : ℕ) (input res : List Byte),
    (encodeMain width fuel input res).2 ++ rfc4648 (encodeMain width fuel input res).1 = res ++ rfc4648 input
  | 0, _, _ => rfl
  | fuel + 1, input, res => by
    rw [encodeMain]
    split_ifs with h
    · rw [encodeMain_eq hw fuel, toB64Ascii_take hw h, append_assoc, rfc4648_take_drop hw]
    · rfl

theorem encodeTail_eq (hw : width ∈ [16, 32, 64]) : ∀ (fuel : ℕ) (input res : List Byte),
    input.length ≤ fuel → encodeTail width fuel input res = res ++ rfc4648 input
  | 0, input, res, h => by
    obtain rfl : input = [] := eq_nil_of_length_eq_zero (le_zero.mp h)
    exact (append_nil res).symm
  | fuel + 1, input, res, h => by
    obtain ⟨hfour, hthree, -, hpos⟩ := width_eq hw
    rw [encodeTail]
    split_ifs with hinput
    · have ih := encodeTail_eq hw fuel (input.drop (width * 3 / 4)) (res ++ encodeChunk width input)
        (by rw [length_drop]; omega)
      rw [ih, encodeChunk_eq hw, append_assoc, rfc4648_take_drop hw]
    · obtain rfl : input = [] := eq_nil_of_length_eq_zero (by omega)
      exact (append_nil res).symm

/-- The vector code computes the encoding of the RFC. -/
theorem b64encode_eq (hw : width ∈ [16, 32, 64]) (d : List Byte) : b64encode width d = rfc4648 d := by
  have hmain := encodeMain_eq hw d.length d []
  exact (encodeTail_eq hw _ _ _ le_rfl).trans hmain

theorem decode_quantum (x y z : Byte) : ∃ a b c d : BitVec 6,
    quantum x y z = [encoded a, encoded b, encoded c, encoded d] ∧ a.setWidth 8 <<< 2 ||| b.setWidth 8 >>> 4 = x ∧
    (b.setWidth 8 &&& 0x0F) <<< 4 ||| c.setWidth 8 >>> 2 = y ∧ (c.setWidth 8 &&& 0x03) <<< 6 ||| d.setWidth 8 = z := by
  have h := sextets_eq x y z
  refine ⟨_, _, _, _, rfl, ?_⟩
  simp only [sextets, map_cons, map_nil, cons.injEq, and_true] at h
  obtain ⟨ha, hb, hc, hd⟩ := h
  refine ⟨?_, ?_, ?_⟩ <;> ext i hi <;> interval_cases i <;> simp

theorem asciiToValue_pad : asciiToValue pad = .ok 0 := rfl

theorem decodeQuartets_rfc4648 : ∀ (d res : List Byte), decodeQuartets (rfc4648 d) res = .ok (res ++ d)
  | x :: y :: z :: rest, res => by
    obtain ⟨a, b, c, d, hquant, hx, hy, hz⟩ := decode_quantum x y z
    have ih := decodeQuartets_rfc4648 rest (res ++ [x, y, z])
    have hquartet : decodeQuartet (encoded a) (encoded b) (encoded c) (encoded d) = .ok ([x, y, z], true) := by
      simp only [decodeQuartet, asciiToValue_encoded, ok_bind, hx, hy, hz, if_false, pure_eq_ok]
    rw [rfc4648, hquant]
    refine (?_ : _ = decodeQuartets (rfc4648 rest) (res ++ [x, y, z])).trans (ih.trans (by simp))
    change (decodeQuartet (encoded a) (encoded b) (encoded c) (encoded d) >>= _) = _
    rw [hquartet]
    rfl
  | [x, y], res => by
    obtain ⟨a, b, c, d, hquant, hx, hy, -⟩ := decode_quantum x y 0
    have hquartet : decodeQuartet (encoded a) (encoded b) (encoded c) pad = .ok ([x, y], false) := by
      simp only [decodeQuartet, asciiToValue_encoded, asciiToValue_pad, ok_bind, hx, hy, if_false,
        if_true, pure_eq_ok]
    rw [rfc4648, hquant]
    change (decodeQuartet (encoded a) (encoded b) (encoded c) pad >>= _) = _
    rw [hquartet]
    rfl
  | [x], res => by
    obtain ⟨a, b, c, d, hquant, hx, -, -⟩ := decode_quantum x 0 0
    have hquartet : decodeQuartet (encoded a) (encoded b) pad pad = .ok ([x], false) := by
      simp [decodeQuartet, asciiToValue_encoded, asciiToValue_pad, hx]
    rw [rfc4648, hquant]
    change (decodeQuartet (encoded a) (encoded b) pad pad >>= _) = _
    rw [hquartet]
    rfl
  | [], res => by rw [append_nil]; rfl

theorem length_rfc4648 (d : List Byte) : (rfc4648 d).length % 4 = 0 := by
  rw [rfc4648_eq_quanta d d.length (by omega), length_append, length_take, length_quanta, length_replicate, carrying]
  omega

theorem not_whitespace_of_mem_rfc4648 {d : List Byte} {char : Byte} (h : char ∈ rfc4648 d) :
    isAsciiWhitespace char = false := by
  rw [rfc4648_eq_quanta d d.length (by omega)] at h
  rcases mem_append.mp h with h | h
  · obtain ⟨i, -, h⟩ := mem_flatMap.mp (mem_of_mem_take h)
    obtain ⟨v, -, rfl⟩ := mem_map.mp h
    exact (asciiToValue_encoded v).2.2
  · obtain rfl := eq_of_mem_replicate h
    rfl

/-- `Spaced text spaced`: the second is the first with whitespace inserted anywhere. -/
inductive Spaced : List Byte → List Byte → Prop
  | nil : Spaced [] []
  | char {text spaced} (char : Byte) : Spaced text spaced → Spaced (char :: text) (char :: spaced)
  | space {text spaced} (char : Byte) :
      isAsciiWhitespace char = true → Spaced text spaced → Spaced text (char :: spaced)

theorem Spaced.significant_eq {text spaced : List Byte} (h : Spaced text spaced)
    (htext : ∀ char ∈ text, isAsciiWhitespace char = false) : significant spaced = text := by
  induction h with
  | nil => rfl
  | char char _ ih =>
    rw [significant, filter_cons_of_pos (by simp [htext char mem_cons_self])]
    exact congrArg _ (ih fun c hc => htext c (mem_cons_of_mem char hc))
  | space char hspace _ ih =>
    rw [significant, filter_cons_of_neg (by simp [hspace])]
    exact ih htext

/-- **The round trip.** At each of the vector widths the encoder computes the encoding of RFC 4648, and the
    decoder gives the bytes back, wherever whitespace is inserted into the text. -/
theorem encode_decode_roundtrip (width : ℕ) (hw : width ∈ [16, 32, 64]) (d : List Byte) :
    b64encode width d = rfc4648 d ∧ ∀ text, Spaced (b64encode width d) text → b64decode text = .ok d := by
  have hencode := b64encode_eq hw d
  refine ⟨hencode, fun text hspaced => ?_⟩
  rw [hencode] at hspaced
  have hsignificant := hspaced.significant_eq fun _ => not_whitespace_of_mem_rfc4648
  rw [b64decode_eq, hsignificant, if_neg (not_not.mpr (length_rfc4648 d)), decodeQuartets_rfc4648, nil_append]

/-- `"M"` at a width of 16 lanes is `"TQ=="`, also as `"TQ =="`. -/
theorem encode_decode_roundtrip_single : b64encode 16 [0x4D] = [0x54, 0x51, 0x3D, 0x3D] ∧
      b64decode [0x54, 0x51, 0x20, 0x3D, 0x3D] = .ok [0x4D] := by
  have h := encode_decode_roundtrip 16 (by decide) [0x4D]
  have htext : b64encode 16 [0x4D] = [0x54, 0x51, 0x3D, 0x3D] := h.1.trans (by decide +kernel)
  refine ⟨htext, h.2 _ ?_⟩
  exact .char _ (.char _ (.space _ rfl (.char _ (.char _ .nil))))

end MojoProse.Stdlib.Base64
