import Mathlib.Data.List.Find
import Mathlib.Data.List.Infix
import MojoProse.Schemes.Bisect
import MojoProse.Stdlib.SplitLines

/-! `StringSpan.split` with a separator, over `StringSpan.find` and the vectorised search `_memmem`
    (`string_span.mojo`). -/

namespace MojoProse.Stdlib.Utf8

open List Nat

/-! ### Substring search -/

/-- The vector widths of the target machine, in bytes and in lanes of a mask. -/
structure Target where
  simdWidth : ℕ
  boolMaskWidth : ℕ
  pos : 0 < boolMaskWidth

/-- A search below `n`: the blocks of `width` lanes, in each those that the mask selects; then the positions behind. -/
def vectorSearch (width n : ℕ) (mask check scalar : ℕ → Bool) : Option ℕ :=
  let vectorizedEnd := n / width * width
  (((range (n / width)).flatMap fun block => (range' (block * width) width).filter mask).find? check).or
    ((range' vectorizedEnd (n - vectorizedEnd)).find? scalar)

/-- `unsafe_memcmp(..) == 0` of the bytes behind the first one. -/
def memcmpTail (haystack needle : List Byte) (i : ℕ) : Bool :=
  (haystack.drop (i + 1)).take (needle.length - 1) = needle.drop 1

/-- The body of the scalar loops: the first byte, then the others. -/
def needleAt (haystack needle : List Byte) (i : ℕ) : Bool :=
  haystack.getD i 0 = needle.getD 0 0 && memcmpTail haystack needle i

variable (target : Target)

def memchrImpl (source : List Byte) (char : Byte) : Option ℕ :=
  vectorSearch target.boolMaskWidth source.length (fun i => source.getD i 0 = char) (fun _ => true)
    fun i => source.getD i 0 = char

def memchr (source : List Byte) (char : Byte) : Option ℕ :=
  if source.length < target.simdWidth then (range source.length).find? fun i => source.getD i 0 = char
  else memchrImpl target source char

def memmemImpl (haystack needle : List Byte) : Option ℕ :=
  if needle.length = 1 then memchr target haystack (needle.getD 0 0)
  else if needle.length > haystack.length then none
  else
    vectorSearch target.boolMaskWidth (haystack.length - needle.length + 1)
      (fun i => haystack.getD i 0 = needle.getD 0 0 &&
        haystack.getD (i + needle.length - 1) 0 = needle.getD (needle.length - 1) 0)
      (memcmpTail haystack needle) (needleAt haystack needle)

def memmem (haystack needle : List Byte) : Option ℕ :=
  if haystack.length < target.simdWidth then
    (range (haystack.length + 1 - needle.length)).find? (needleAt haystack needle)
  else memmemImpl target haystack needle

def find (self substr : List Byte) (start : ℤ) : ℤ :=
  if substr = [] then 0
  else if (self.length : ℤ) < substr.length + start then -1
  else
    let startByte := if start ≥ 0 then start else max (start + self.length) 0
    match memmem target (self.drop startByte.toNat) substr with
    | none => -1
    | some loc => startByte + loc

/-- `_memrmem`; for one byte it is `_memrchr`. -/
def memrmem (haystack needle : List Byte) : Option ℕ :=
  if needle = [] then some 0
  else if needle.length > haystack.length then none
  else if needle.length = 1 then (range haystack.length).reverse.find? fun i => haystack.getD i 0 = needle.getD 0 0
  else (range (haystack.length - needle.length + 1)).reverse.find? (needleAt haystack needle)

def rfind (self substr : List Byte) (start : ℤ) : ℤ :=
  if substr = [] then self.length
  else if (self.length : ℤ) < substr.length + start then -1
  else
    let startByte := if start ≥ 0 then start else max (start + self.length) 0
    match memrmem (self.drop startByte.toNat) substr with
    | none => -1
    | some loc => startByte + loc

/-! ### Splitting -/

def codepointSlices : ℕ → List Byte → List (List Byte)
  | _, [] => []
  | 0, _ => []
  | fuel + 1, b :: tail =>
    let byteLen := utf8FirstByteSequenceLength b
    (b :: tail).take byteLen :: codepointSlices fuel ((b :: tail).drop byteLen)

/-- The loop of `_split`. Without `maxsplit` the limit is `none`. -/
def splitLoop (target : Target) (srcStr sep : List Byte) (maxsplit : Option ℤ) :
    ℕ → ℤ → ℤ → List (List Byte) → List (List Byte)
  | 0, _, _, output => output
  | fuel + 1, lhs, items, output =>
    if lhs ≤ srcStr.length then
      let rhs := find target srcStr sep lhs
      let rhs := if rhs < 0 then rhs + (srcStr.length + 1) else rhs
      let rhs := if maxsplit = some items then rhs + (srcStr.length - rhs) else rhs
      splitLoop target srcStr sep maxsplit fuel (rhs + sep.length) (items + 1)
        (output ++ [(srcStr.drop lhs.toNat).take (rhs - lhs).toNat])
    else output

/-- `_split`. The loop advances by the separator, so that it takes at most `len + 1` turns. -/
def split (target : Target) (srcStr sep : List Byte) (maxsplit : Option ℤ) : List (List Byte) :=
  if sep.length = 0 then [[]] ++ codepointSlices srcStr.length srcStr ++ [[]]
  else splitLoop target srcStr sep maxsplit (srcStr.length + 1) 0 0 []

/-! ### The search finds the leftmost occurrence -/

theorem range_eq_blocks (width : ℕ) : ∀ n : ℕ,
    (range n).flatMap (fun block => range' (block * width) width) = range (n * width)
  | 0 => by simp
  | n + 1 => by
    rw [range_succ, flatMap_append, range_eq_blocks width n, flatMap_singleton,
      range_eq_range', range_eq_range', Nat.add_mul, Nat.one_mul]
    have h := @range'_append_1 0 (n * width) width
    simpa using h

/-- The vectorised search finds what the scalar one does, if the mask is no stricter. -/
theorem vectorSearch_eq {width n : ℕ} {mask check scalar p : ℕ → Bool} (hmask : ∀ i < n, (mask i && check i) = p i)
    (hscalar : ∀ i < n, scalar i = p i) : vectorSearch width n mask check scalar = (range n).find? p := by
  have hend : n / width * width ≤ n := div_mul_le_self n width
  have hspl : range n = range (n / width * width) ++
      range' (n / width * width) (n - n / width * width) := by
    have h := @range'_append_1 0 (n / width * width) (n - n / width * width)
    rw [Nat.zero_add, Nat.add_sub_cancel' hend] at h
    rw [range_eq_range', range_eq_range', h]
  have hblks : (((range (n / width)).flatMap fun block =>
      (range' (block * width) width).filter mask).find? check) =
      (range (n / width * width)).find? p := by
    rw [← filter_flatMap, range_eq_blocks, find?_filter]
    refine find?_congr fun i hi => ?_
    have hi : i < n := (mem_range.mp hi).trans_le hend
    rw [← hmask i hi]
    simp
  have htail : (range' (n / width * width) (n - n / width * width)).find? scalar =
      (range' (n / width * width) (n - n / width * width)).find? p := by
    refine find?_congr fun i hi => hscalar i ?_
    have := (mem_range'_1.mp hi).2
    omega
  rw [vectorSearch, hblks, htail, hspl, find?_append]

def OccursAt (needle haystack : List Byte) (i : ℕ) : Prop := needle <+: haystack.drop i

instance (needle haystack : List Byte) (i : ℕ) : Decidable (OccursAt needle haystack i) :=
  inferInstanceAs (Decidable (_ <+: _))

variable {needle haystack p : List Byte} {i : ℕ}

theorem needleAt_eq (hi : i < haystack.length) (hndl : needle ≠ []) :
    needleAt haystack needle i = decide (OccursAt needle haystack i) := by
  obtain ⟨b, rest, rfl⟩ := exists_cons_of_ne_nil hndl
  have hdrop : haystack.drop i = haystack.getD i 0 :: haystack.drop (i + 1) := by
    rw [drop_eq_getElem_cons hi, getD_eq_getElem?_getD, getElem?_eq_getElem hi]
    rfl
  have hocc : OccursAt (b :: rest) haystack i ↔ b = haystack.getD i 0 ∧
      rest = (haystack.drop (i + 1)).take rest.length := by
    rw [OccursAt, hdrop, cons_prefix_cons, prefix_iff_eq_take]
  rw [needleAt, memcmpTail]
  simp [hocc, eq_comm]

def firstOccurrence (needle haystack : List Byte) : Option ℕ :=
  (range (haystack.length + 1 - needle.length)).find? fun i => OccursAt needle haystack i

theorem memchr_eq (target : Target) (source : List Byte) (char : Byte) :
    memchr target source char = (range source.length).find? fun i => source.getD i 0 = char := by
  rw [memchr]
  split_ifs
  · rfl
  · exact vectorSearch_eq (fun i _ => Bool.and_true _) fun i _ => rfl

/-- Where the first and the other bytes match, the last one does. -/
theorem getD_last_of_occursAt (hndl : needle ≠ [])
    (h : OccursAt needle haystack i) : haystack.getD (i + needle.length - 1) 0 = needle.getD (needle.length - 1) 0 := by
  obtain ⟨rest, hrest⟩ := h
  have hpos := length_pos_of_ne_nil hndl
  have hidx : i + needle.length - 1 = i + (needle.length - 1) := by omega
  rw [getD_eq_getElem?_getD, getD_eq_getElem?_getD, hidx, ← getElem?_drop, ← hrest, getElem?_append_left (by omega)]

theorem memmem_eq (target : Target) (haystack : List Byte) (hndl : needle ≠ []) :
    memmem target haystack needle = firstOccurrence needle haystack := by
  have hpos := length_pos_of_ne_nil hndl
  have hat : ∀ i < haystack.length + 1 - needle.length,
      needleAt haystack needle i = decide (OccursAt needle haystack i) :=
    fun i hi => needleAt_eq (by omega) hndl
  have hscalar : (range (haystack.length + 1 - needle.length)).find? (needleAt haystack needle) =
      firstOccurrence needle haystack := find?_congr fun i hi => hat i (mem_range.mp hi)
  rw [memmem, memmemImpl]
  split_ifs with hshort hone hlong
  · exact hscalar
  · obtain ⟨b, rfl⟩ := length_eq_one_iff.mp hone
    rw [← hscalar, memchr_eq]
    exact find?_congr fun i _ => by simp [needleAt, memcmpTail]
  · rw [firstOccurrence, Nat.sub_eq_zero_of_le hlong]
    rfl
  · have hcnt : haystack.length - needle.length + 1 = haystack.length + 1 - needle.length := by omega
    rw [hcnt]
    refine vectorSearch_eq (fun i hi => ?_) hat
    rw [← hat i hi, Bool.eq_iff_iff, needleAt]
    simp only [Bool.and_eq_true, decide_eq_true_eq]
    constructor
    · exact fun h => ⟨h.1.1, h.2⟩
    · intro h
      have hneedleAt : needleAt haystack needle i = true := by
        rw [needleAt, Bool.and_eq_true, decide_eq_true_eq]
        exact h
      have hocc : OccursAt needle haystack i := of_decide_eq_true ((hat i hi).symm.trans hneedleAt)
      exact ⟨⟨h.1, getD_last_of_occursAt hndl hocc⟩, h.2⟩

theorem not_occursAt_of_length (h : haystack.length < i + needle.length)
    (hndl : needle ≠ []) : ¬OccursAt needle haystack i := by
  intro hocc
  have hle := hocc.length_le
  have hpos := length_pos_of_ne_nil hndl
  rw [length_drop] at hle
  omega

theorem firstOccurrence_eq_none (hndl : needle ≠ []) :
    firstOccurrence needle haystack = none ↔ ∀ i, ¬OccursAt needle haystack i := by
  rw [firstOccurrence, find?_eq_none]
  refine ⟨fun h i => ?_, fun h i _ => by simpa using h i⟩
  rcases lt_or_ge i (haystack.length + 1 - needle.length) with hi | hi
  · simpa using h i (mem_range.mpr hi)
  · exact not_occursAt_of_length (by omega) hndl

theorem firstOccurrence_eq_some (h : firstOccurrence needle haystack = some i) :
    OccursAt needle haystack i ∧ ∀ j < i, ¬OccursAt needle haystack j := by
  rw [firstOccurrence, find?_range_eq_some] at h
  obtain ⟨hi, -, hbef⟩ := h
  exact ⟨by simpa using hi, fun j hj => by simpa using hbef j hj⟩

theorem occursAt_drop {low : ℕ} : OccursAt needle (haystack.drop low) i ↔ OccursAt needle haystack (low + i) := by
  rw [OccursAt, drop_drop, OccursAt]

section From
variable {self substr : List Byte} (hsubstr : substr ≠ []) {start : ℤ} {low : ℕ}
  (hlow : (if start ≥ 0 then start else max (start + self.length) 0) = low)
include hsubstr hlow

theorem not_occursAt_of_bound (h : (self.length : ℤ) < substr.length + start) (hi : low ≤ i) :
    ¬OccursAt substr self i := by
  refine not_occursAt_of_length ?_ hsubstr
  split_ifs at hlow <;> omega

theorem find_eq (target : Target) : find target self substr start =
      match firstOccurrence substr (self.drop low) with
      | none => -1
      | some i => (low + i : ℕ) := by
  rw [find, if_neg hsubstr, hlow]
  rcases Int.lt_or_le (self.length : ℤ) (substr.length + start) with hlen | hlen
  · rw [if_pos hlen, (firstOccurrence_eq_none hsubstr).mpr fun i hi =>
      not_occursAt_of_bound hsubstr hlow hlen (le_add_right low i) (occursAt_drop.mp hi)]
  · rw [if_neg (Int.not_lt.mpr hlen)]
    dsimp only
    rw [Int.toNat_natCast, memmem_eq target _ hsubstr]
    rcases firstOccurrence substr (self.drop low) with _ | i
    · rfl
    · simp

end From

theorem memrmem_spec (haystack : List Byte) (hndl : needle ≠ []) :
    (memrmem haystack needle = none ∧ ∀ i, ¬OccursAt needle haystack i) ∨
      ∃ j, memrmem haystack needle = some j ∧ OccursAt needle haystack j ∧ ∀ i, OccursAt needle haystack i → i ≤ j := by
  have hpos := length_pos_of_ne_nil hndl
  have hscalar : memrmem haystack needle =
      (range (haystack.length + 1 - needle.length)).reverse.find? (needleAt haystack needle) := by
    rw [memrmem, if_neg hndl]
    split_ifs with hlong hone
    · rw [Nat.sub_eq_zero_of_le hlong]
      rfl
    · obtain ⟨b, rfl⟩ := length_eq_one_iff.mp hone
      exact find?_congr fun i _ => by simp [needleAt, memcmpTail]
    · rw [show haystack.length - needle.length + 1 = haystack.length + 1 - needle.length by omega]
  rw [hscalar, find?_congr fun i hi =>
    needleAt_eq (by have := mem_range.mp (mem_reverse.mp hi); omega) hndl]
  have hrange : ∀ i, OccursAt needle haystack i → i < haystack.length + 1 - needle.length := by
    intro i hi
    by_contra hge
    exact not_occursAt_of_length (by omega) hndl hi
  cases hfind : (range (haystack.length + 1 - needle.length)).reverse.find?
      fun i => decide (OccursAt needle haystack i) with
  | none =>
    refine .inl ⟨rfl, fun i hi => ?_⟩
    have := find?_eq_none.mp hfind i (mem_reverse.mpr (mem_range.mpr (hrange i hi)))
    simp [hi] at this
  | some j =>
    obtain ⟨hj, hmax⟩ := Schemes.find?_reverse_range hfind
    exact .inr ⟨j, rfl, of_decide_eq_true hj, fun i hi => hmax i (hrange i hi) (decide_eq_true hi)⟩

/-- `Pieces sep s ps`: cutting `s` at the leftmost occurrence of `sep`, and so on behind it, gives `ps`. -/
inductive Pieces (sep : List Byte) : List Byte → List (List Byte) → Prop
  | last {s} : (∀ i, ¬OccursAt sep s i) → Pieces sep s [s]
  | cut {p s ps} : (∀ i < p.length, ¬OccursAt sep (p ++ sep ++ s) i) → Pieces sep s ps →
      Pieces sep (p ++ sep ++ s) (p :: ps)

section Pieces

variable {sep : List Byte} {s : List Byte} {ps : List (List Byte)}

theorem Pieces.ne_nil (h : Pieces sep s ps) : ps ≠ [] := by
  cases h <;> exact cons_ne_nil _ _

theorem intercalate_cons (hps : ps ≠ []) : sep.intercalate (p :: ps) = p ++ sep ++ sep.intercalate ps := by
  simp [intercalate, intersperse]

theorem nil_intercalate : ∀ ps : List (List Byte), ([] : List Byte).intercalate ps = ps.flatten
  | [] => rfl
  | [p] => by simp [intercalate]
  | p :: q :: ps => by
    rw [intercalate_cons (cons_ne_nil q ps), nil_intercalate (q :: ps), append_nil]
    rfl

theorem Pieces.intercalate (h : Pieces sep s ps) : sep.intercalate ps = s := by
  induction h with
  | last _ => simp
  | cut _ h ih => rw [intercalate_cons h.ne_nil, ih]

theorem Pieces.not_infix (h : Pieces sep s ps) (hsep : sep ≠ []) : ∀ p ∈ ps, ¬sep <:+: p := by
  have hat : ∀ {p : List Byte}, sep <:+: p → ∃ i < p.length, ∀ t, OccursAt sep (p ++ t) i := by
    rintro p ⟨pre, behind, rfl⟩
    have hpos := length_pos_of_ne_nil hsep
    refine ⟨pre.length, by simp; omega, fun t => ⟨behind ++ t, ?_⟩⟩
    simp
  induction h with
  | last hnone =>
    intro p hp hinfix
    obtain rfl := mem_singleton.mp hp
    obtain ⟨i, -, hocc⟩ := hat hinfix
    exact hnone i (by simpa using hocc [])
  | @cut p s ps hbef _ ih =>
    refine forall_mem_cons.mpr ⟨fun hinfix => ?_, ih⟩
    obtain ⟨i, hi, hocc⟩ := hat hinfix
    exact hbef i hi (by simpa using hocc (sep ++ s))

theorem Pieces.length_le (h : Pieces sep s ps) (hsep : sep ≠ []) : ps.length ≤ s.length + 1 := by
  have hpos := length_pos_of_ne_nil hsep
  induction h with
  | last _ => simp
  | cut _ _ ih =>
    simp only [length_cons, length_append]
    omega

theorem exists_cut (hfst : firstOccurrence sep s = some i) :
    ∃ p rest, s = p ++ sep ++ rest ∧ i = p.length ∧ ∀ j < p.length, ¬OccursAt sep s j := by
  obtain ⟨⟨rest, hrest⟩, hbef⟩ := firstOccurrence_eq_some hfst
  have hi : i ≤ s.length := by
    have h := mem_range.mp (mem_of_find?_eq_some hfst)
    omega
  have hlen : (s.take i).length = i := length_take_of_le hi
  exact ⟨s.take i, rest, by rw [append_assoc, hrest, take_append_drop], hlen.symm, fun j hj => hbef j (hlen ▸ hj)⟩

theorem exists_pieces (hsep : sep ≠ []) : ∀ (n : ℕ) (s : List Byte), s.length ≤ n → ∃ ps, Pieces sep s ps := by
  have hpos := length_pos_of_ne_nil hsep
  intro n
  induction n with
  | zero =>
    intro s hs
    refine ⟨_, .last fun i => not_occursAt_of_length ?_ hsep⟩
    omega
  | succ n ih =>
    intro s hs
    rcases hfst : firstOccurrence sep s with _ | i
    · exact ⟨_, .last ((firstOccurrence_eq_none hsep).mp hfst)⟩
    · obtain ⟨p, rest, rfl, rfl, hbef⟩ := exists_cut hfst
      simp only [length_append] at hs
      obtain ⟨ps, hps⟩ := ih rest (by omega)
      exact ⟨p :: ps, .cut hbef hps⟩

end Pieces

/-! ### The loop -/

theorem drop_behind {srcStr sep s : List Byte} {lhs : ℕ} (hlhs : lhs ≤ srcStr.length)
    (hdrop : srcStr.drop lhs = p ++ sep ++ s) :
    lhs + p.length + sep.length ≤ srcStr.length ∧ srcStr.drop (lhs + p.length + sep.length) = s := by
  have hlen := congrArg length hdrop
  simp only [length_drop, length_append] at hlen
  refine ⟨by omega, ?_⟩
  rw [Nat.add_assoc, ← drop_drop, hdrop, ← length_append, drop_left]

section Loop

variable (target : Target) {srcStr sep : List Byte} (maxsplit : Option ℤ)

theorem splitLoop_done {lhs : ℤ} (hlhs : (srcStr.length : ℤ) < lhs) (items : ℤ) (output : List (List Byte)) :
    ∀ fuel, splitLoop target srcStr sep maxsplit fuel lhs items output = output
  | 0 => rfl
  | _ + 1 => by rw [splitLoop, if_neg (Int.not_le.mpr hlhs)]

variable (hsep : sep ≠ [])

include hsep

theorem splitLoop_last (fuel lhs : ℕ) (items : ℤ) (output : List (List Byte)) (hlhs : lhs ≤ srcStr.length)
    (hlast : maxsplit = some items ∨ ∀ i, ¬OccursAt sep (srcStr.drop lhs) i) :
    splitLoop target srcStr sep maxsplit (fuel + 1) lhs items output = output ++ [srcStr.drop lhs] := by
  have hpos := length_pos_of_ne_nil hsep
  have hrhs : ∀ rhs : ℤ, rhs = find target srcStr sep lhs →
      (if maxsplit = some items then (if rhs < 0 then rhs + (srcStr.length + 1) else rhs) +
        (srcStr.length - if rhs < 0 then rhs + (srcStr.length + 1) else rhs)
        else if rhs < 0 then rhs + (srcStr.length + 1) else rhs) = srcStr.length := by
    intro rhs hrhs
    rcases hlast with hlim | hnone
    · rw [if_pos hlim]
      omega
    · have hfind : find target srcStr sep lhs = -1 := by
        rw [find_eq hsep (if_pos (Int.natCast_nonneg lhs)), (firstOccurrence_eq_none hsep).mpr hnone]
      split_ifs <;> omega
  rw [splitLoop, if_pos (Int.ofNat_le.mpr hlhs)]
  dsimp only
  rw [hrhs _ rfl, splitLoop_done target maxsplit (by omega), Int.toNat_natCast, take_of_length_le]
  rw [length_drop]
  omega

theorem splitLoop_cut (fuel lhs : ℕ) (items : ℤ) (output : List (List Byte)) {rest : List Byte}
    (hlhs : lhs ≤ srcStr.length) (hdrop : srcStr.drop lhs = p ++ sep ++ rest)
    (hbef : ∀ i < p.length, ¬OccursAt sep (p ++ sep ++ rest) i) (hitems : maxsplit ≠ some items) :
    splitLoop target srcStr sep maxsplit (fuel + 1) lhs items output =
      splitLoop target srcStr sep maxsplit fuel (lhs + p.length + sep.length : ℕ) (items + 1) (output ++ [p]) := by
  have hfst : firstOccurrence sep (srcStr.drop lhs) = some p.length := by
    rw [hdrop, firstOccurrence, find?_range_eq_some]
    refine ⟨?_, ?_, fun j hj => by simpa using hbef j hj⟩
    · have : OccursAt sep (p ++ sep ++ rest) p.length := ⟨rest, by simp⟩
      simpa using this
    · simp only [mem_range, length_append]
      omega
  have hfind : find target srcStr sep lhs = (lhs + p.length : ℕ) := by rw [find_eq hsep (if_pos (Int.natCast_nonneg lhs)), hfst]
  have hpiece : (srcStr.drop lhs).take p.length = p := by rw [hdrop, append_assoc, take_left]
  have hlen : ((lhs + p.length : ℕ) - (lhs : ℤ)).toNat = p.length := by omega
  rw [splitLoop, if_pos (Int.ofNat_le.mpr hlhs), hfind]
  dsimp only
  rw [if_neg (by omega : ¬((lhs + p.length : ℕ) : ℤ) < 0), if_neg hitems, hlen, Int.toNat_natCast, hpiece]
  congr 1

end Loop

/-- Without a limit the loop gives all pieces; with one, the pieces up to it and the rest. -/
theorem splitLoop_pieces (target : Target) (srcStr : List Byte) (maxsplit : Option ℤ) {sep s : List Byte}
    (hsep : sep ≠ []) {ps : List (List Byte)} (h : Pieces sep s ps) : ∀ (fuel lhs : ℕ) (items : ℤ) (output : List (List Byte)),
      lhs ≤ srcStr.length → srcStr.drop lhs = s → ps.length ≤ fuel →
      ∃ qs, splitLoop target srcStr sep maxsplit fuel lhs items output = output ++ qs ∧ (maxsplit = none → qs = ps) ∧
        ∀ k : ℕ, maxsplit = some (items + k) → qs.length = min (k + 1) ps.length ∧
          qs.dropLast = ps.take (qs.length - 1) ∧ sep.intercalate qs = s := by
  induction h with
  | @last s hnone =>
    rintro (_ | fuel) lhs items output hlhs hdrop hfuel
    · simp at hfuel
    · refine ⟨[s], ?_, fun _ => rfl, fun k _ => by simp [intercalate]⟩
      rw [splitLoop_last target _ hsep fuel lhs items output hlhs (.inr (hdrop ▸ hnone)), hdrop]
  | @cut p s ps hbef h ih =>
    rintro (_ | fuel) lhs items output hlhs hdrop hfuel
    · simp at hfuel
    by_cases hitems : maxsplit = some items
    · refine ⟨[p ++ sep ++ s], ?_, by simp [hitems], fun k hk => ?_⟩
      · rw [splitLoop_last target _ hsep fuel lhs items output hlhs (.inl hitems), hdrop]
      · obtain rfl : k = 0 := by
          have := Option.some.inj (hitems.symm.trans hk)
          omega
        simp [intercalate]
    · have hrest := drop_behind hlhs hdrop
      obtain ⟨qs, hqs, hall, hlim⟩ := ih fuel _ (items + 1) (output ++ [p]) hrest.1 hrest.2 (by simpa using hfuel)
      refine ⟨p :: qs, ?_, fun hnone => by rw [hall hnone], ?_⟩
      · rw [splitLoop_cut target _ hsep fuel lhs items output hlhs hdrop hbef hitems, hqs]
        simp
      · rintro (_ | k) hk
        · exact absurd (by simpa using hk) hitems
        obtain ⟨hlen, hfst, hjoin⟩ := hlim k (by rw [hk]; congr 1; omega)
        have hpos := length_pos_of_ne_nil h.ne_nil
        have hne : qs ≠ [] := ne_nil_of_length_pos (by omega)
        refine ⟨by simp only [length_cons, hlen]; omega, ?_, by rw [intercalate_cons hne, hjoin]⟩
        have hcnt : (p :: qs).length - 1 = qs.length - 1 + 1 := by
          rw [length_cons]
          omega
        rw [dropLast_cons_of_ne_nil hne, hcnt, take_succ_cons, hfst]

/-! ### Splitting is exact, with a separator -/

theorem codepointSlices_text : ∀ (fuel : ℕ) (cs : List Character), cs.length ≤ fuel →
    codepointSlices fuel (text cs) = cs.map Subtype.val
  | _, [], _ => by rw [text_nil, codepointSlices, map_nil]
  | 0, _ :: _, hfuel => by simp at hfuel
  | fuel + 1, c :: cs, hfuel => by
    obtain ⟨b, rest, hc⟩ := exists_first c
    have hfst : first c = b := by simp [first, hc]
    have hlen := utf8FirstByteSequenceLength_first c
    have hcons : text (c :: cs) = b :: (rest ++ text cs) := by rw [text_cons, hc, cons_append]
    have ih := codepointSlices_text fuel cs (by simpa using hfuel)
    rw [hcons, codepointSlices, ← hcons, ← hfst, hlen, text_cons, take_left, drop_left, ih, map_cons]

/-- **Splitting on a separator.** A separator that is not empty cuts the string at its leftmost occurrences that do not
    overlap; and a limit is respected iff the separator is not empty, or the string has no more pieces anyway. -/
theorem split_exact_iff (target : Target) (cs : List Character) (sep : List Byte) (k : ℕ) :
    let s := text cs
    let ps := split target s sep none
    let qs := split target s sep (some k)
    (sep ≠ [] → Pieces sep s ps ∧ sep.intercalate ps = s ∧ ∀ p ∈ ps, ¬sep <:+: p) ∧
      ((qs.length = min (k + 1) ps.length ∧ qs.dropLast = ps.take (qs.length - 1) ∧ sep.intercalate qs = s) ↔
        sep ≠ [] ∨ cs.length + 2 ≤ k + 1) := by
  dsimp only
  rcases eq_or_ne sep [] with rfl | hsep
  · have hcut : ∀ limit, split target (text cs) [] limit = [[]] ++ cs.map Subtype.val ++ [[]] := fun limit => by
      rw [split, if_pos length_nil, codepointSlices_text _ cs (length_le_text cs)]
    refine ⟨fun h => absurd rfl h, ?_⟩
    rw [hcut, hcut]
    have hlength : ([[]] ++ cs.map Subtype.val ++ [[]] : List (List Byte)).length = cs.length + 2 := by simp
    have hjoin : ([] : List Byte).intercalate ([[]] ++ cs.map Subtype.val ++ [[]]) = text cs := by
      rw [nil_intercalate]
      simp [text, flatMap]
    simp only [hlength, hjoin, ne_eq, not_true_eq_false, false_or, and_true]
    constructor
    · rintro ⟨hmin, -⟩
      omega
    · intro hle
      exact ⟨by omega, by rw [dropLast_eq_take, hlength]⟩
  · obtain ⟨ps, hps⟩ := exists_pieces hsep (text cs).length (text cs) le_rfl
    have hfuel := hps.length_le hsep
    have hrun := fun maxsplit => splitLoop_pieces target (text cs) maxsplit hsep hps ((text cs).length + 1) 0 0 []
      (zero_le _) rfl hfuel
    obtain ⟨_, hall, hps', -⟩ := hrun none
    obtain rfl := hps' rfl
    obtain ⟨qs, hqs, -, hlimited⟩ := hrun (some k)
    have hpos : ¬sep.length = 0 := fun h => hsep (eq_nil_of_length_eq_zero h)
    rw [split, split, if_neg hpos, if_neg hpos]
    rw [nil_append, Int.natCast_zero] at hall
    rw [nil_append, Int.natCast_zero] at hqs
    rw [hall, hqs]
    exact ⟨fun _ => ⟨hps, hps.intercalate, hps.not_infix hsep⟩, iff_of_true (hlimited k (by rw [Int.zero_add])) (.inl hsep)⟩

/-- `"123".split("", 1)` is cut behind every character: five pieces instead of two. -/
theorem split_empty_ignores_maxsplit :
    split ⟨16, 16, by decide⟩ [0x31, 0x32, 0x33] [] (some 1) = [[], [0x31], [0x32], [0x33], []] := by
  decide +kernel

end MojoProse.Stdlib.Utf8
