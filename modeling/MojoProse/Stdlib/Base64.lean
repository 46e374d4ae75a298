import MojoProse.Stdlib.Utf8

/-! `b64decode` (`base64.mojo`), and which texts it accepts.

    A position in the input is the part of it that is still to be read. -/

namespace MojoProse.Stdlib.Base64

open List

/-- What `b64decode` raises. The last one is a read behind the end of the input. -/
inductive DecodeError where
  | length (n : ℕ)
  | unexpectedCharacter (char : Byte)
  | outOfBounds
  deriving DecidableEq

/-- The byte of `=`. -/
def pad : Byte := 0x3D

def asciiToValue (char : Byte) : Except DecodeError Byte :=
  if char = pad then .ok 0
  else if 0x41 ≤ char ∧ char ≤ 0x5A then .ok (char - 0x41)
  else if 0x61 ≤ char ∧ char ≤ 0x7A then .ok (char - 0x61 + 26)
  else if 0x30 ≤ char ∧ char ≤ 0x39 then .ok (char - 0x30 + 52)
  else if char = 0x2B then .ok 62
  else if char = 0x2F then .ok 63
  else .error (.unexpectedCharacter char)

def isAsciiWhitespace (char : Byte) : Bool := char = 0x20 || (0x09 ≤ char && char ≤ 0x0D)

/-- `_next_significant_byte`: the byte, and what is left behind it. -/
def nextSignificantByte : List Byte → Except DecodeError (Byte × List Byte)
  | [] => .error .outOfBounds
  | char :: rest => if isAsciiWhitespace char then nextSignificantByte rest else .ok (char, rest)

/-- The bytes of a quartet, and whether the loop goes on behind it. -/
def decodeQuartet (aByte bByte cByte dByte : Byte) : Except DecodeError (List Byte × Bool) := do
  let a ← asciiToValue aByte
  let b ← asciiToValue bByte
  let c ← asciiToValue cByte
  let d ← asciiToValue dByte
  let first := a <<< 2 ||| b >>> 4
  if cByte = pad then return ([first], false)
  else
    let second := (b &&& 0x0F) <<< 4 ||| c >>> 2
    if dByte = pad then return ([first, second], false)
    else return ([first, second, (c &&& 0x03) <<< 6 ||| d], true)

/-- The loop of `b64decode`, for `n` quartets. -/
def decodeLoop : ℕ → List Byte → List Byte → Except DecodeError (List Byte)
  | 0, _, result => .ok result
  | n + 1, input, result => do
    let (aByte, input) ← nextSignificantByte input
    let (bByte, input) ← nextSignificantByte input
    let (cByte, input) ← nextSignificantByte input
    let (dByte, input) ← nextSignificantByte input
    let (bytes, goesOn) ← decodeQuartet aByte bByte cByte dByte
    if goesOn then decodeLoop n input (result ++ bytes) else return result ++ bytes

def b64decode (str : List Byte) : Except DecodeError (List Byte) :=
  let n := str.countP fun char => !isAsciiWhitespace char
  if n % 4 ≠ 0 then .error (.length n) else decodeLoop (n / 4) str []

def significant (str : List Byte) : List Byte := str.filter fun char => !isAsciiWhitespace char

variable {char : Byte}

theorem nextSignificantByte_of_cons {str rest : List Byte} (h : significant str = char :: rest) :
    ∃ str', nextSignificantByte str = .ok (char, str') ∧ significant str' = rest := by
  induction str with
  | nil => cases h
  | cons x xs ih =>
    rcases hx : isAsciiWhitespace x with _ | _
    · rw [significant, filter_cons_of_pos (by simp [hx])] at h
      obtain ⟨rfl, hrest⟩ := cons.inj h
      exact ⟨xs, by rw [nextSignificantByte, hx]; rfl, hrest⟩
    · rw [significant, filter_cons_of_neg (by simp [hx])] at h
      obtain ⟨str', hnext, hrest⟩ := ih h
      exact ⟨str', by rw [nextSignificantByte, hx]; exact hnext, hrest⟩

/-- The loop on the significant characters, a quartet at a time. -/
def decodeQuartets : List Byte → List Byte → Except DecodeError (List Byte)
  | a :: b :: c :: d :: rest, result => do
    let (bytes, goesOn) ← decodeQuartet a b c d
    if goesOn then decodeQuartets rest (result ++ bytes) else return result ++ bytes
  | _, result => .ok result

theorem decodeLoop_eq : ∀ (n : ℕ) {str : List Byte} (res : List Byte),
    (significant str).length = 4 * n → decodeLoop n str res = decodeQuartets (significant str) res
  | 0, str, res, h => by
    have hnil : significant str = [] := eq_nil_of_length_eq_zero h
    rw [hnil]
    rfl
  | n + 1, str, res, h => by
    rcases hs : significant str with _ | ⟨a, _ | ⟨b, _ | ⟨c, _ | ⟨d, rest⟩⟩⟩⟩ <;> rw [hs] at h <;>
      simp only [length_nil, length_cons] at h
    iterate 4 omega
    obtain ⟨s1, ha, h1⟩ := nextSignificantByte_of_cons hs
    obtain ⟨s2, hb, h2⟩ := nextSignificantByte_of_cons h1
    obtain ⟨s3, hc, h3⟩ := nextSignificantByte_of_cons h2
    obtain ⟨s4, hd, h4⟩ := nextSignificantByte_of_cons h3
    have ih := fun res => @decodeLoop_eq n s4 res (by rw [h4]; omega)
    rw [decodeLoop, ha]
    simp [hb, hc, hd, decodeQuartets, ih, h4]

theorem b64decode_eq (str : List Byte) : b64decode str =
      if (significant str).length % 4 ≠ 0 then .error (.length (significant str).length)
      else decodeQuartets (significant str) [] := by
  have hn : str.countP (fun char => !isAsciiWhitespace char) = (significant str).length := countP_eq_length_filter
  rw [b64decode, hn]
  split_ifs with h
  · rfl
  · exact decodeLoop_eq _ [] (by omega)

def InAlphabet (char : Byte) : Prop :=
  (0x41 ≤ char ∧ char ≤ 0x5A) ∨ (0x61 ≤ char ∧ char ≤ 0x7A) ∨ (0x30 ≤ char ∧ char ≤ 0x39) ∨
    char = 0x2B ∨ char = 0x2F

instance : DecidablePred InAlphabet := fun _ => inferInstanceAs (Decidable (_ ∨ _))

/-- `=` occurs only as the last one or two characters. -/
def PaddedAtEnd (text : List Byte) : Prop :=
  ∃ body padding, text = body ++ padding ∧ pad ∉ body ∧ (padding = [] ∨ padding = [pad] ∨ padding = [pad, pad])

/-- Base64 text: quartets of the alphabet, padded at the end. -/
def WellFormed (text : List Byte) : Prop :=
  text.length % 4 = 0 ∧ (∀ char ∈ text, InAlphabet char ∨ char = pad) ∧ PaddedAtEnd text

/-- The part of the text the loop reads: up to the first quartet that is padded in its last two places. -/
def checked : List Byte → List Byte
  | a :: b :: c :: d :: rest => a :: b :: c :: d :: if c = pad ∨ d = pad then [] else checked rest
  | _ => []

/-- A character that is decoded. -/
def Legal (char : Byte) : Prop := InAlphabet char ∨ char = pad

theorem asciiToValue_of_legal (h : Legal char) : ∃ v, asciiToValue char = .ok v := by
  rw [asciiToValue]
  rcases h with (h | h | h | h | h) | h <;> split_ifs <;> simp_all

theorem asciiToValue_of_not_legal (h : ¬Legal char) : asciiToValue char = .error (.unexpectedCharacter char) := by
  simp only [Legal, InAlphabet, not_or] at h
  obtain ⟨⟨hupper, hlower, hdig, hplus, hslash⟩, hpad⟩ := h
  rw [asciiToValue, if_neg hpad, if_neg hupper, if_neg hlower, if_neg hdig, if_neg hplus, if_neg hslash]

/-- A quartet is decoded iff its four characters are; the loop goes on unless one of the last two is padding. -/
theorem decodeQuartet_ok {a b c d : Byte} (h : Legal a ∧ Legal b ∧ Legal c ∧ Legal d) :
    ∃ bytes, decodeQuartet a b c d = .ok (bytes, decide (c ≠ pad ∧ d ≠ pad)) := by
  obtain ⟨va, ha⟩ := asciiToValue_of_legal h.1
  obtain ⟨vb, hb⟩ := asciiToValue_of_legal h.2.1
  obtain ⟨vc, hc⟩ := asciiToValue_of_legal h.2.2.1
  obtain ⟨vd, hd⟩ := asciiToValue_of_legal h.2.2.2
  simp only [decodeQuartet, ha, hb, hc, hd, Schemes.ok_bind]
  split_ifs with hcp hdp
  · exact ⟨_, by simp [hcp]; rfl⟩
  · exact ⟨_, by simp [hdp]; rfl⟩
  · exact ⟨_, by simp [hcp, hdp]; rfl⟩

theorem decodeQuartet_error {a b c d : Byte} (h : ¬(Legal a ∧ Legal b ∧ Legal c ∧ Legal d)) :
    ∃ e, decodeQuartet a b c d = .error e := by
  rw [decodeQuartet]
  rcases Classical.em (Legal a) with ha | ha
  case inr => exact ⟨_, by rw [asciiToValue_of_not_legal ha]; rfl⟩
  obtain ⟨va, hva⟩ := asciiToValue_of_legal ha
  rcases Classical.em (Legal b) with hb | hb
  case inr => exact ⟨_, by rw [hva, asciiToValue_of_not_legal hb]; rfl⟩
  obtain ⟨vb, hvb⟩ := asciiToValue_of_legal hb
  rcases Classical.em (Legal c) with hc | hc
  case inr => exact ⟨_, by rw [hva, hvb, asciiToValue_of_not_legal hc]; rfl⟩
  obtain ⟨vc, hvc⟩ := asciiToValue_of_legal hc
  have hd : ¬Legal d := fun hd => h ⟨ha, hb, hc, hd⟩
  exact ⟨_, by rw [hva, hvb, hvc, asciiToValue_of_not_legal hd]; rfl⟩

theorem decodeQuartets_ok_iff : ∀ (text res : List Byte),
    (∃ out, decodeQuartets text res = .ok out) ↔ ∀ char ∈ checked text, Legal char
  | a :: b :: c :: d :: rest, res => by
    rw [decodeQuartets, checked]
    by_cases hq : Legal a ∧ Legal b ∧ Legal c ∧ Legal d
    · obtain ⟨bytes, hbytes⟩ := decodeQuartet_ok hq
      have ih := decodeQuartets_ok_iff rest (res ++ bytes)
      rw [hbytes]
      by_cases hp : c = pad ∨ d = pad
      · have hstop : ¬(c ≠ pad ∧ d ≠ pad) := by tauto
        simp [hp, hstop, hq]
      · have hgo : c ≠ pad ∧ d ≠ pad := by tauto
        simpa [hp, hgo, hq] using ih
    · obtain ⟨e, he⟩ := decodeQuartet_error hq
      rw [he]
      simp only [Schemes.error_bind, reduceCtorEq, exists_false, mem_cons, false_iff, not_forall]
      by_contra hall
      push Not at hall
      exact hq ⟨hall a (by simp), hall b (by simp), hall c (by simp), hall d (by simp)⟩
  | [], res | [_], res | [_, _], res | [_, _, _], res => by simp [decodeQuartets, checked]

/-- The decoder accepts a text iff its length is right and all that the loop reads is legal. -/
theorem b64decode_ok_iff {str : List Byte} : (∃ out, b64decode str = .ok out) ↔
      (significant str).length % 4 = 0 ∧ ∀ char ∈ checked (significant str), Legal char := by
  rw [b64decode_eq]
  split_ifs with h
  · simp [h]
  · simp only [decodeQuartets_ok_iff, ne_eq, not_not] at h ⊢
    exact ⟨fun hall => ⟨h, hall⟩, And.right⟩

theorem paddedAtEnd_drop {a b c d : Byte} {rest : List Byte} (h : PaddedAtEnd (a :: b :: c :: d :: rest))
    (hrest : rest ≠ []) (hlen : rest.length % 4 = 0) : a ≠ pad ∧ b ≠ pad ∧ c ≠ pad ∧ d ≠ pad ∧ PaddedAtEnd rest := by
  obtain ⟨body, padding, htext, hbody, hpadding⟩ := h
  have hlong : 4 ≤ rest.length := by
    have := length_pos_of_ne_nil hrest
    omega
  have hshort : padding.length ≤ 2 := by rcases hpadding with rfl | rfl | rfl <;> simp
  have hlength := congrArg length htext
  simp only [length_cons, length_append] at hlength
  rcases body with _ | ⟨a', _ | ⟨b', _ | ⟨c', _ | ⟨d', body⟩⟩⟩⟩ <;>
    simp only [length_cons, length_nil] at hlength
  iterate 4 omega
  obtain ⟨rfl, rfl, rfl, rfl, rfl⟩ := htext
  simp only [mem_cons, not_or] at hbody
  obtain ⟨ha, hb, hc, hd, hbody⟩ := hbody
  exact ⟨Ne.symm ha, Ne.symm hb, Ne.symm hc, Ne.symm hd, body, padding, rfl, hbody, hpadding⟩

/-- A text that is padded only at its end is read to its end. -/
theorem checked_of_paddedAtEnd : ∀ {text : List Byte}, text.length % 4 = 0 → PaddedAtEnd text → checked text = text
  | a :: b :: c :: d :: rest, hlen, h => by
    have hlen' : rest.length % 4 = 0 := by
      simp only [length_cons] at hlen
      omega
    rw [checked]
    rcases eq_or_ne rest [] with rfl | hrest
    · simp [checked]
    · obtain ⟨-, -, hc, hd, hpadded⟩ := paddedAtEnd_drop h hrest hlen'
      rw [if_neg (by tauto), checked_of_paddedAtEnd hlen' hpadded]
  | [], _, _ => rfl
  | [_], hlen, _ | [_, _], hlen, _ | [_, _, _], hlen, _ => by simp at hlen

/-- **Malformed text is rejected**, unless all of it that the loop reads is legal and yet a `=` stands
    before the end. -/
theorem rejects_malformed_iff (str : List Byte) : (∀ out, b64decode str = .ok out → WellFormed (significant str)) ↔
      (significant str).length % 4 ≠ 0 ∨ (∃ char ∈ checked (significant str), ¬Legal char) ∨
        PaddedAtEnd (significant str) := by
  have haccepts := @b64decode_ok_iff str
  constructor
  · intro h
    rcases Classical.em (∃ out, b64decode str = .ok out) with ⟨out, hout⟩ | hraises
    · exact .inr (.inr (h out hout).2.2)
    · rw [haccepts, not_and_or] at hraises
      rcases hraises with hlen | hillegal
      · exact .inl hlen
      · push Not at hillegal
        exact .inr (.inl hillegal)
  · rintro (hlen | ⟨char, hchar, hillegal⟩ | hpadded) out hout
    · exact absurd (haccepts.mp ⟨out, hout⟩).1 hlen
    · exact absurd ((haccepts.mp ⟨out, hout⟩).2 char hchar) hillegal
    · obtain ⟨hlen, hlegal⟩ := haccepts.mp ⟨out, hout⟩
      rw [checked_of_paddedAtEnd hlen hpadded] at hlegal
      exact ⟨hlen, hlegal, hpadded⟩

/-- `"TQ==!!!!"`: nothing behind the first padded quartet is looked at. -/
theorem garbage_behind_padding_accepted : b64decode [0x54, 0x51, 0x3D, 0x3D, 0x21, 0x21, 0x21, 0x21] = .ok [0x4D] ∧
      ¬WellFormed (significant [0x54, 0x51, 0x3D, 0x3D, 0x21, 0x21, 0x21, 0x21]) := by
  refine ⟨by decide +kernel, fun h => ?_⟩
  rcases h.2.1 0x21 (by decide +kernel) with h | h
  · exact absurd h (by decide)
  · exact absurd h (by decide)

end MojoProse.Stdlib.Base64
