import Mathlib.Algebra.Order.Ring.Int
import MojoProse.Stdlib.Utf8

/-! `atol` (`string.mojo`): which strings are integers in a base, and what they stand for.

    A position in the string is what is left of it. The accumulator is a 64-bit `UInt`. -/

namespace MojoProse.Stdlib.Atol

open List

/-- The base is not 0 and not in 2..36; the string is not convertible; the integer is too large for an `Int`. -/
inductive AtolError where
  | base
  | notConvertible
  | tooLarge
  deriving DecidableEq

def isPosixSpace (c : Byte) : Bool :=
  c = 0x20 || c = 0x09 || c = 0x0A || c = 0x0D || c = 0x0C || c = 0x0B || c = 0x1C || c = 0x1D || c = 0x1E

/-- `_trim_and_handle_sign`: what is left, and whether the sign is `-`. -/
def trimAndHandleSign (str : List Byte) : List Byte × Bool :=
  match str.dropWhile isPosixSpace with
  | [] => ([], false)
  | c :: rest => (if c = 0x2B ∨ c = 0x2D then rest else c :: rest, c = 0x2D)

/-- `_handle_base_prefix`: what is left, and whether there was a prefix. -/
def handleBasePrefix (rest : List Byte) (base : ℤ) : List Byte × Bool :=
  match rest with
  | zero :: char :: tail =>
    if zero = 0x30 ∧ ((base = 2 ∧ (char = 0x62 ∨ char = 0x42)) ∨ (base = 8 ∧ (char = 0x6F ∨ char = 0x4F)) ∨
        (base = 16 ∧ (char = 0x78 ∨ char = 0x58))) then (tail, true)
    else (rest, false)
  | _ => (rest, false)

/-- The loop of `_identify_base` over an unprefixed literal with a leading zero. -/
def onlyZeros : Bool → List Byte → Bool
  | _, [] => true
  | wasLastCharacterUnderscore, c :: tail =>
    if c = 0x5F then if wasLastCharacterUnderscore then false else onlyZeros true tail
    else if c ≠ 0x30 then false
    else onlyZeros false tail

/-- `_identify_base`; the source returns `(-1, -1)` for `none`. -/
def identifyBase (rest : List Byte) : Option (ℕ × List Byte) :=
  match rest with
  | [] => none
  | [_] => some (10, rest)
  | c :: second :: tail =>
    if c = 0x30 then
      if second = 0x62 ∨ second = 0x42 then some (2, tail)
      else if second = 0x6F ∨ second = 0x4F then some (8, tail)
      else if second = 0x78 ∨ second = 0x58 then some (16, tail)
      else if onlyZeros false (second :: tail) then some (10, rest)
      else none
    else if 0x31 ≤ c ∧ c ≤ 0x39 then some (10, rest)
    else none

/-- The digit that a character is in the loop of `atol`; `ord_num_max` and `ord_letter_max` depend on the base. -/
def digit (realBase : ℕ) (c : Byte) : Option ℕ :=
  let ordCurrent : ℤ := c.toNat
  let ordNumMax : ℤ := if realBase ≤ 10 then 0x30 + (realBase - 1) else 0x39
  let ordLetterMax : ℤ × ℤ := if realBase ≤ 10 then (-1, -1) else (0x61 + (realBase - 11), 0x41 + (realBase - 11))
  if 0x30 ≤ ordCurrent ∧ ordCurrent ≤ ordNumMax then some (ordCurrent - 0x30).toNat
  else if 0x61 ≤ ordCurrent ∧ ordCurrent ≤ ordLetterMax.1 then some (ordCurrent - 0x61 + 10).toNat
  else if 0x41 ≤ ordCurrent ∧ ordCurrent ≤ ordLetterMax.2 then some (ordCurrent - 0x41 + 10).toNat
  else none

/-- The variables of the loop. -/
structure Number where
  result : ℕ
  wasLastDigitUnderscore : Bool
  foundValidCharsAfterStart : Bool

/-- The loop of `atol`: the variables behind it, and what is left behind the space that ended it. -/
def digitsLoop (realBase limit : ℕ) : Number → List Byte → Except AtolError (Number × Option (List Byte))
  | number, [] => .ok (number, none)
  | number, c :: tail =>
    if c = 0x5F then
      if number.wasLastDigitUnderscore then .error .notConvertible
      else digitsLoop realBase limit { number with wasLastDigitUnderscore := true } tail
    else
      match digit realBase c with
      | none =>
        if isPosixSpace c then .ok ({ number with wasLastDigitUnderscore := false }, some tail)
        else .error .notConvertible
      | some d =>
        if number.result > limit - d then .error .tooLarge
        else
          let result := (number.result + d) % 2 ^ 64
          if tail.head?.any fun next => !isPosixSpace next then
            if result > limit / realBase then .error .tooLarge
            else digitsLoop realBase limit ⟨result * realBase % 2 ^ 64, false, true⟩ tail
          else digitsLoop realBase limit ⟨result, false, true⟩ tail

/-- The loop and the checks behind it. -/
def parseNumber (realBase limit : ℕ) (start : Number) (rest : List Byte) : Except AtolError ℕ := do
  let (number, behind) ← digitsLoop realBase limit start rest
  if number.wasLastDigitUnderscore ∨ ¬number.foundValidCharsAfterStart then .error .notConvertible
  else if behind.any fun tail => !tail.all isPosixSpace then .error .notConvertible
  else .ok number.result

/-- `limit`: the largest magnitude that fits in `Int`. -/
def magnitudeLimit (isNegative : Bool) : ℕ := 2 ^ 63 - 1 + if isNegative then 1 else 0

/-- The base, what is left, and whether there was a prefix. -/
def baseOf (rest : List Byte) (base : ℤ) : Except AtolError (ℕ × List Byte × Bool) :=
  if base = 0 then
    match identifyBase rest with
    | none => .error .notConvertible
    | some (realBase, rest) => .ok (realBase, rest, realBase ≠ 10)
  else
    let (rest, hasPrefix) := handleBasePrefix rest base
    .ok (base.toNat, rest, hasPrefix)

def atol (str : List Byte) (base : ℤ) : Except AtolError ℤ :=
  if base ≠ 0 ∧ (base < 2 ∨ base > 36) then .error .base
  else if str = [] then .error .notConvertible
  else
    let (rest, isNegative) := trimAndHandleSign str
    if rest = [] then .error .notConvertible
    else do
      let (realBase, rest, hasPrefix) ← baseOf rest base
      let start : Number := ⟨0, !(realBase ∈ [2, 8, 16] ∧ hasPrefix), false⟩
      let result ← parseNumber realBase (magnitudeLimit isNegative) start rest
      if isNegative then if result = 2 ^ 63 - 1 + 1 then return -2 ^ 63 else return -(result : ℤ)
      else return result

example : atol [0x2D, 0x31, 0x5F, 0x30] 10 = .ok (-10) := by decide +kernel

def digitValue (c : Byte) : Option ℕ :=
  if 0x30 ≤ c.toNat ∧ c.toNat ≤ 0x39 then some (c.toNat - 0x30)
  else if 0x61 ≤ c.toNat ∧ c.toNat ≤ 0x7A then some (c.toNat - 0x61 + 10)
  else if 0x41 ≤ c.toNat ∧ c.toNat ≤ 0x5A then some (c.toNat - 0x41 + 10)
  else none

def IsDigit (base : ℕ) (c : Byte) (d : ℕ) : Prop := digitValue c = some d ∧ d < base

/-- `Digits base text ds`: the text is the digits `ds`, with single underscores between some of them. -/
inductive Digits (base : ℕ) : List Byte → List ℕ → Prop
  | one {c d} : IsDigit base c d → Digits base [c] [d]
  | cons {c d text ds} : IsDigit base c d → Digits base text ds → Digits base (c :: text) (d :: ds)
  | sep {c d text ds} : IsDigit base c d → Digits base text ds → Digits base (c :: 0x5F :: text) (d :: ds)

def value (base n : ℕ) (ds : List ℕ) : ℕ := ds.foldl (fun n d => n * base + d) n

/-- The prefixes, and the bases that they choose. -/
def prefixes : List (ℕ × List Byte) :=
  [(2, [0x30, 0x62]), (2, [0x30, 0x42]), (8, [0x30, 0x6F]), (8, [0x30, 0x4F]), (16, [0x30, 0x78]), (16, [0x30, 0x58])]

/-- The text is an integer literal in `base` (0 if it chooses), written in `realBase`, of the value `n`. -/
inductive Literal : ℕ → ℕ → List Byte → ℕ → Prop
  /-- Without a prefix. -/
  | plain {base text ds} : base ≠ 0 → Digits base text ds → Literal base base text (value base 0 ds)
  /-- Without a prefix, for base 0: with a leading zero, all digits are zeros. -/
  | decimal {text ds} : Digits 10 text ds → (text.head? = some 0x30 → ∀ d ∈ ds, d = 0) →
      Literal 0 10 text (value 10 0 ds)
  /-- Behind a prefix. -/
  | prefixed {base realBase marker text ds} : (realBase, marker) ∈ prefixes → base = 0 ∨ base = realBase →
      Digits realBase text ds → Literal base realBase (marker ++ text) (value realBase 0 ds)
  /-- Behind a prefix and an underscore. -/
  | separated {base realBase marker text ds} : (realBase, marker) ∈ prefixes → base = 0 ∨ base = realBase →
      Digits realBase text ds → Literal base realBase (marker ++ 0x5F :: text) (value realBase 0 ds)

def Spaces (text : List Byte) : Prop := ∀ c ∈ text, isPosixSpace c = true

/-- The sign, and whether it is `-`. -/
def signs : List (List Byte × Bool) := [([], false), ([0x2B], false), ([0x2D], true)]

def signed (isNegative : Bool) (n : ℕ) : ℤ := if isNegative then -n else n

/-- **The documented strings**: whitespace, a sign, a literal, whitespace; and the value is a 64-bit `Int`. -/
def Parses (str : List Byte) (base : ℕ) (v : ℤ) : Prop :=
  ∃ front sign isNegative realBase literal n behind,
    str = front ++ sign ++ literal ++ behind ∧ Spaces front ∧ (sign, isNegative) ∈ signs ∧
      Literal base realBase literal n ∧ Spaces behind ∧ v = signed isNegative n ∧ -2 ^ 63 ≤ v ∧ v ≤ 2 ^ 63 - 1

variable {base : ℕ}

theorem digit_eq_some_iff (hbase : 2 ≤ base ∧ base ≤ 36) (c : Byte) (d : ℕ) :
    digit base c = some d ↔ IsDigit base c d := by
  rw [digit, IsDigit, digitValue]
  split_ifs <;> simp only [Option.some.injEq, false_and, iff_false, false_iff, not_and] <;> omega

theorem digit_eq_none (hbase : 2 ≤ base ∧ base ≤ 36) {c : Byte} (h : ∀ d, ¬IsDigit base c d) : digit base c = none :=
  Option.eq_none_iff_forall_ne_some.mpr fun d hd => h d ((digit_eq_some_iff hbase c d).mp hd)

theorem not_digit : ∀ c : Byte, (digitValue c).isSome → c ≠ 0x5F ∧ c ≠ 0x2B ∧ c ≠ 0x2D ∧ isPosixSpace c = false := by
  decide +kernel

variable {c : Byte} {d : ℕ}

theorem IsDigit.not_special (h : IsDigit base c d) : c ≠ 0x5F ∧ c ≠ 0x2B ∧ c ≠ 0x2D ∧ isPosixSpace c = false :=
  not_digit c (by rw [h.1]; rfl)

theorem not_isDigit_of_space (hc : isPosixSpace c = true) : ¬IsDigit base c d := by
  intro h
  rw [h.not_special.2.2.2] at hc
  cases hc

theorem not_isDigit_underscore : ¬IsDigit base 0x5F d := fun h => h.not_special.1 rfl

theorem spaces_cons {text : List Byte} : Spaces (c :: text) ↔ isPosixSpace c = true ∧ Spaces text := forall_mem_cons

theorem Digits.head {text : List Byte} {ds : List ℕ} (h : Digits base text ds) :
    ∃ c text' d ds', text = c :: text' ∧ ds = d :: ds' ∧ IsDigit base c d := by
  cases h with
  | one hd | cons hd _ | sep hd _ => exact ⟨_, _, _, _, rfl, rfl, hd⟩

theorem le_value (base : ℕ) : ∀ (ds : List ℕ) (n : ℕ), 1 ≤ base → n ≤ value base n ds
  | [], n, _ => le_rfl
  | d :: ds, n, hbase => by
    have ih := le_value base ds (n * base + d) hbase
    have hn : n * 1 ≤ n * base := Nat.mul_le_mul_left n hbase
    exact le_trans (by omega) ih

/-- What may stand behind a literal: whitespace, or an underscore and whitespace. -/
def Closes (realBase : ℕ) (literal : List Byte) (m : ℕ) (rest : List Byte) (n : ℕ) : Prop :=
  (∃ behind, rest = literal ++ behind ∧ Spaces behind ∧ n = m) ∨
    ∃ behind, rest = literal ++ 0x5F :: behind ∧ behind ≠ [] ∧ Spaces behind ∧ n = m * realBase

theorem closes_append {front text rest : List Byte} {m n : ℕ} : Closes base (front ++ text) m rest n ↔
    ∃ tail, rest = front ++ tail ∧ Closes base text m tail n := by
  constructor
  · rintro (⟨post, rfl, h⟩ | ⟨post, rfl, h⟩)
    · exact ⟨text ++ post, append_assoc .., .inl ⟨post, rfl, h⟩⟩
    · exact ⟨text ++ 0x5F :: post, append_assoc .., .inr ⟨post, rfl, h⟩⟩
  · rintro ⟨tail, rfl, ⟨post, rfl, h⟩ | ⟨post, rfl, h⟩⟩
    · exact .inl ⟨post, (append_assoc ..).symm, h⟩
    · exact .inr ⟨post, (append_assoc ..).symm, h⟩

theorem closes_cons {text rest : List Byte} {m n : ℕ} : Closes base (c :: text) m rest n ↔
    ∃ tail, rest = c :: tail ∧ Closes base text m tail n := @closes_append base [c] text rest m n

/-- Behind digits of value `n` come digits and whitespace, of value `v` in all; or an underscore before the whitespace,
    and `v` is `base` times as large. -/
def Body (base limit n : ℕ) (rest : List Byte) (v : ℕ) : Prop :=
  v ≤ limit ∧ ∃ text ds, Digits base text ds ∧
    ((∃ behind, rest = text ++ behind ∧ Spaces behind ∧ v = value base n ds) ∨
      ∃ behind, rest = text ++ 0x5F :: behind ∧ behind ≠ [] ∧ Spaces behind ∧ v = value base n ds * base)

variable {tail : List Byte}

section Body

variable {base limit n : ℕ} {rest : List Byte} {v : ℕ}

theorem Body.isDigit (h : Body base limit n rest v) : ∃ c tail d, rest = c :: tail ∧ IsDigit base c d := by
  obtain ⟨-, text, ds, hdigs, hrest⟩ := h
  obtain ⟨c, text, d, ds, rfl, rfl, hd⟩ := hdigs.head
  obtain ⟨tail, rfl, -⟩ := closes_cons.mp hrest
  exact ⟨c, tail, d, rfl, hd⟩

theorem Body.mul_le (h : Body base limit n rest v) (hbase : 1 ≤ base) : n * base ≤ limit := by
  obtain ⟨hv, text, ds, hdigs, hrest⟩ := h
  obtain ⟨c, text, d, ds, rfl, rfl, hd⟩ := hdigs.head
  have hle : n * base + d ≤ value base n (d :: ds) := le_value base ds (n * base + d) hbase
  have hmul : value base n (d :: ds) * 1 ≤ value base n (d :: ds) * base := Nat.mul_le_mul_left _ hbase
  rcases hrest with ⟨-, -, -, rfl⟩ | ⟨-, -, -, -, rfl⟩ <;> omega

theorem body_digit (hd : IsDigit base c d) : Body base limit n (c :: tail) v ↔
      (Spaces tail ∧ v = n * base + d ∧ v ≤ limit) ∨ Body base limit (n * base + d) tail v ∨
        ∃ tail', tail = 0x5F :: tail' ∧ (Body base limit (n * base + d) tail' v ∨
          (tail' ≠ [] ∧ Spaces tail' ∧ v = (n * base + d) * base ∧ v ≤ limit)) := by
  constructor
  · rintro ⟨hv, text, ds, hdigs, hrest⟩
    obtain ⟨c', text, d', ds, rfl, rfl, hd'⟩ := hdigs.head
    obtain ⟨_, heq, htail⟩ := closes_cons.mp hrest
    obtain ⟨rfl, rfl⟩ := cons.inj heq
    obtain rfl : d = d' := Option.some.inj (hd.1.symm.trans hd'.1)
    cases hdigs with
    | one _ =>
      rcases htail with ⟨post, rfl, hsps, rfl⟩ | ⟨post, rfl, hne, hsps, rfl⟩
      · exact .inl ⟨hsps, rfl, hv⟩
      · exact .inr (.inr ⟨post, rfl, .inr ⟨hne, hsps, rfl, hv⟩⟩)
    | cons _ hdigs => exact .inr (.inl ⟨hv, _, _, hdigs, htail⟩)
    | sep _ hdigs =>
      obtain ⟨tail', heq, htail⟩ := closes_cons.mp htail
      exact .inr (.inr ⟨tail', heq, .inl ⟨hv, _, _, hdigs, htail⟩⟩)
  · rintro (⟨hsps, rfl, hv⟩ | ⟨hv, text, ds, hdigs, hrest⟩ | ⟨tail', rfl, ⟨hv, text, ds, hdigs, hrest⟩ |
      ⟨hne, hsps, rfl, hv⟩⟩)
    · exact ⟨hv, [c], [d], .one hd, .inl ⟨tail, rfl, hsps, rfl⟩⟩
    · exact ⟨hv, c :: text, d :: ds, .cons hd hdigs, closes_cons.mpr ⟨tail, rfl, hrest⟩⟩
    · exact ⟨hv, c :: 0x5F :: text, d :: ds, .sep hd hdigs,
        closes_cons.mpr ⟨_, rfl, closes_cons.mpr ⟨tail', rfl, hrest⟩⟩⟩
    · exact ⟨hv, [c], [d], .one hd, .inr ⟨tail', rfl, hne, hsps, rfl⟩⟩

end Body

section Loop

variable {base limit : ℕ} {number : Number} {v : ℕ}

theorem parseNumber_nil : parseNumber base limit number [] = .ok v ↔
    number.wasLastDigitUnderscore = false ∧ number.foundValidCharsAfterStart = true ∧ v = number.result := by
  obtain ⟨result, last, found⟩ := number
  rcases last with _ | _ <;> rcases found with _ | _ <;>
    simp [parseNumber, digitsLoop, @eq_comm _ v]

theorem parseNumber_underscore : parseNumber base limit number (0x5F :: tail) = .ok v ↔
    number.wasLastDigitUnderscore = false ∧
      parseNumber base limit { number with wasLastDigitUnderscore := true } tail = .ok v := by
  rw [parseNumber, digitsLoop, if_pos rfl]
  rcases number.wasLastDigitUnderscore with _ | _
  · simp [parseNumber]
  · simp

section
variable (hbase : 2 ≤ base ∧ base ≤ 36)
include hbase

theorem parseNumber_space (hc : isPosixSpace c = true) : parseNumber base limit number (c :: tail) = .ok v ↔
      number.foundValidCharsAfterStart = true ∧ Spaces tail ∧ v = number.result := by
  have hunder : c ≠ 0x5F := by
    rintro rfl
    cases hc
  rw [parseNumber, digitsLoop, if_neg hunder, digit_eq_none hbase fun d => not_isDigit_of_space hc]
  rw [if_pos hc, Spaces, ← all_eq_true]
  dsimp only [Schemes.ok_bind, Option.any_some]
  grind

theorem parseNumber_other (hspace : isPosixSpace c = false) (hunder : c ≠ 0x5F) (hdig : ∀ d, ¬IsDigit base c d) :
    ¬parseNumber base limit number (c :: tail) = .ok v := by
  rw [parseNumber, digitsLoop, if_neg hunder, digit_eq_none hbase hdig]
  rw [if_neg (by simp [hspace])]
  simp

/-- A turn at a digit: the accumulator is multiplied if the number goes on. -/
theorem parseNumber_digit (hlim : limit ≤ 2 ^ 63) (h36 : 36 ≤ limit)
    (hd : IsDigit base c d) : parseNumber base limit number (c :: tail) = .ok v ↔ number.result + d ≤ limit ∧
      if tail.head?.any fun next => !isPosixSpace next then (number.result + d) * base ≤ limit ∧
          parseNumber base limit ⟨(number.result + d) * base, false, true⟩ tail = .ok v
      else parseNumber base limit ⟨number.result + d, false, true⟩ tail = .ok v := by
  have hlt := hd.2
  have hdiv : ∀ r, r > limit / base ↔ ¬r * base ≤ limit := fun r => by
    rw [gt_iff_lt, Nat.div_lt_iff_lt_mul (by omega), not_le]
  rw [parseNumber, digitsLoop, if_neg hd.not_special.1, (digit_eq_some_iff hbase c d).mpr hd]
  dsimp only
  rcases Nat.lt_or_ge (limit - d) number.result with hlarge | hfits
  · rw [if_pos hlarge]
    simp only [Schemes.error_bind, reduceCtorEq, false_iff, not_and]
    omega
  have hsum : number.result + d ≤ limit := by omega
  have hwrap : (number.result + d) % 2 ^ 64 = number.result + d := Nat.mod_eq_of_lt (by omega)
  rw [if_neg (Nat.not_lt.mpr hfits), hwrap, and_iff_right hsum]
  split_ifs with hnext hcut
  · rw [hdiv] at hcut
    simp [hcut]
  · rw [hdiv, not_not] at hcut
    rw [Nat.mod_eq_of_lt (by omega), and_iff_right hcut]
    rfl
  · rfl

end

theorem char_cases (base : ℕ) (c : Byte) : isPosixSpace c = true ∨ c = 0x5F ∨ (∃ d, IsDigit base c d) ∨
    (isPosixSpace c = false ∧ c ≠ 0x5F ∧ ∀ d, ¬IsDigit base c d) := by
  rcases hc : isPosixSpace c with _ | _
  case true => exact .inl rfl
  by_cases hu : c = 0x5F
  · exact .inr (.inl hu)
  by_cases hd : ∃ d, IsDigit base c d
  · exact .inr (.inr (.inl hd))
  · exact .inr (.inr (.inr ⟨rfl, hu, not_exists.mp hd⟩))

theorem not_body_of_not_digit {n : ℕ} (hc : ∀ d, ¬IsDigit base c d) : ¬Body base limit n (c :: tail) v := by
  intro h
  obtain ⟨c', tail', d, hcons, hd⟩ := h.isDigit
  obtain ⟨rfl, -⟩ := cons.inj hcons
  exact hc d hd

theorem not_body_underscore {n : ℕ} : ¬Body base limit n (0x5F :: tail) v :=
  not_body_of_not_digit fun _ => not_isDigit_underscore

theorem not_body_nil {n : ℕ} : ¬Body base limit n [] v := by
  intro h
  obtain ⟨c, tail, d, hcons, -⟩ := h.isDigit
  cases hcons

theorem not_spaces_of_not_space (hc : isPosixSpace c = false) : ¬Spaces (c :: tail) :=
  fun h => by simp [(spaces_cons.mp h).1] at hc

variable (hbase : 2 ≤ base ∧ base ≤ 36)
include hbase

theorem le_of_mul_le {r : ℕ} (h : r * base ≤ limit) : r ≤ limit :=
  le_trans (Nat.le_mul_of_pos_right r (by omega)) h

theorem parseNumber_body (hlim : limit ≤ 2 ^ 63) (h36 : 36 ≤ limit) : ∀ (k : ℕ) (rest : List Byte) (n : ℕ)
    (last found : Bool), rest.length ≤ k → (rest.head? = some 0x5F → last = true) →
      (parseNumber base limit ⟨n * base, last, found⟩ rest = .ok v ↔ Body base limit n rest v ∨
        (found = true ∧ (last = true → rest ≠ []) ∧ Spaces rest ∧ v = n * base)) := by
  intro k
  induction k with
  | zero =>
    intro rest n last found hlen _
    obtain rfl := length_eq_zero_iff.mp (Nat.le_zero.mp hlen)
    simp [parseNumber_nil, not_body_nil, Spaces, and_left_comm]
  | succ k ih =>
    rintro (_ | ⟨c, tail⟩) n last found hlen hhead
    · simp [parseNumber_nil, not_body_nil, Spaces, and_left_comm]
    have hlen : tail.length ≤ k := by simpa using hlen
    have hunderscore : isPosixSpace 0x5F = false := rfl
    rcases char_cases base c with hc | rfl | ⟨d, hd⟩ | ⟨hspace, hunder, hdig⟩
    · simp [parseNumber_space hbase hc, not_body_of_not_digit fun d => not_isDigit_of_space hc, spaces_cons, hc]
    · simp only [hhead rfl, parseNumber_underscore, Bool.true_eq_false, not_body_underscore,
        not_spaces_of_not_space hunderscore, false_and, and_false, or_false]
    · rw [parseNumber_digit hbase hlim h36 hd, body_digit hd]
      simp only [not_spaces_of_not_space hd.not_special.2.2.2, false_and, and_false, or_false]
      generalize n * base + d = r
      have hmul := fun tail (h : Body base limit r tail v) => h.mul_le (by omega)
      have hle := fun h => @le_of_mul_le base limit hbase r h
      -- the cases are those of the character behind the digit
      rcases tail with _ | ⟨c', tail⟩
      · grind [parseNumber_nil, not_body_nil, Spaces]
      rw [head?_cons, Option.any_some]
      rcases hspace : isPosixSpace c' with _ | _
      · rw [Bool.not_false, if_pos rfl]
        by_cases hunder : c' = 0x5F
        · subst hunder
          have := ih tail r true true (Nat.le_of_succ_le hlen) fun _ => rfl
          simp only [parseNumber_underscore, not_body_underscore, not_spaces_of_not_space hspace, this]
          grind
        · have := ih (c' :: tail) r false true hlen (by simpa using hunder)
          simp only [this, not_spaces_of_not_space hspace]
          grind
      · have hbody : ¬Body base limit r (c' :: tail) v := not_body_of_not_digit fun d => not_isDigit_of_space hspace
        grind [parseNumber_space, spaces_cons]
    · simp [parseNumber_other hbase hspace hunder hdig, not_body_of_not_digit hdig, not_spaces_of_not_space hspace]

/-- The loop from the start of the digits; `lead` says that an underscore may stand there. -/
theorem parseNumber_start (hlim : limit ≤ 2 ^ 63) (h36 : 36 ≤ limit) (lead : Bool)
    (rest : List Byte) : parseNumber base limit ⟨0, !lead, false⟩ rest = .ok v ↔
      Body base limit 0 rest v ∨ (lead = true ∧ ∃ rest', rest = 0x5F :: rest' ∧ Body base limit 0 rest' v) := by
  have hplain : ∀ (last : Bool) (rest : List Byte), (rest.head? = some 0x5F → last = true) →
      (parseNumber base limit ⟨0, last, false⟩ rest = .ok v ↔ Body base limit 0 rest v) := by
    intro last rest hhead
    simpa using @parseNumber_body base limit v hbase hlim h36 rest.length rest 0 last false le_rfl hhead
  by_cases hhead : rest.head? = some 0x5F
  · obtain ⟨rest, rfl⟩ := head?_eq_some_iff.mp hhead
    simp only [parseNumber_underscore, not_body_underscore, false_or, cons.injEq, true_and, exists_eq_left',
      Bool.not_eq_false', hplain true rest fun _ => rfl]
  · rw [hplain _ rest fun h => absurd h hhead]
    refine ⟨.inl, ?_⟩
    rintro (h | ⟨-, rest', rfl, -⟩)
    · exact h
    · exact absurd rfl hhead

end Loop

end MojoProse.Stdlib.Atol
