import Mathlib.Data.Nat.Bitwise
import Mathlib.Data.Nat.Log

/-! `Swizzle` (`swizzle.mojo`): a field of `bits` bits is added, without carry, to another one of the same width.

    Offsets are not negative; a left shift drops what leaves the 64 bits of an `Int`. -/

namespace MojoProse.Layouts

open Nat

/-- `a << n` on `Int`. -/
def shl (a n : ℕ) : ℕ := a <<< n % 2 ^ 64

def shiftr (a : ℕ) (s : ℤ) : ℕ := if s > 0 then a >>> s.toNat else shl a (-s).toNat

structure Swizzle where
  bits : ℕ
  base : ℕ
  shift : ℤ
  yyyMask : ℕ
  zzzMask : ℕ

namespace Swizzle

/-- `__init__`, behind its assertions. -/
def init (bits base : ℕ) (shift : ℤ) : Swizzle where
  bits := bits
  base := base
  shift := shift
  yyyMask := shl (shl 1 bits - 1) (base + max shift 0).toNat
  zzzMask := shl (shl 1 bits - 1) (base - min shift 0).toNat

def call (s : Swizzle) (offset : ℕ) : ℕ := offset ^^^ shiftr (offset &&& s.yyyMask) s.shift

def size (s : Swizzle) : ℕ := shl 1 (s.bits + s.base + s.shift.natAbs)

end Swizzle

/-- The bits of the mask are the `n` ones from `low` on. -/
def Masks (mask n low : ℕ) : Prop := ∀ i, mask.testBit i = decide (low ≤ i ∧ i < low + n)

/-- The `n` bits from `src` on are added, without carry, to the `n` bits from `dst` on. -/
def AddsField (f : ℕ → ℕ) (n src dst : ℕ) : Prop :=
  ∀ x i, (f x).testBit i = (x.testBit i ^^ (decide (dst ≤ i ∧ i < dst + n) && x.testBit (i - dst + src)))

section

variable {f : ℕ → ℕ} {n src dst k : ℕ} (h : AddsField f n src dst)
include h

theorem AddsField.testBit_of_not (x : ℕ) {i : ℕ} (hi : ¬(dst ≤ i ∧ i < dst + n)) : (f x).testBit i = x.testBit i := by
  rw [h, decide_eq_false hi, Bool.false_and, Bool.xor_false]

theorem AddsField.involutive (hapart : src + n ≤ dst ∨ dst + n ≤ src) (x : ℕ) : f (f x) = x := by
  refine eq_of_testBit_eq fun i => ?_
  by_cases hi : dst ≤ i ∧ i < dst + n
  · -- the bit that is added is not in the field that it is added to
    rw [h, h.testBit_of_not x (i := i - dst + src) (by omega), h, Bool.xor_assoc, Bool.xor_self, Bool.xor_false]
  · rw [h.testBit_of_not _ hi, h.testBit_of_not _ hi]

theorem AddsField.div_two_pow (hk : dst + n ≤ k) (x : ℕ) : f x / 2 ^ k = x / 2 ^ k := by
  refine eq_of_testBit_eq fun i => ?_
  rw [testBit_div_two_pow, testBit_div_two_pow, h.testBit_of_not x (by omega)]

theorem AddsField.mod_two_pow (hk : k ≤ dst) (x : ℕ) : f x % 2 ^ k = x % 2 ^ k := by
  refine eq_of_testBit_eq fun i => ?_
  rw [testBit_mod_two_pow, testBit_mod_two_pow]
  by_cases hi : i < k
  · rw [h.testBit_of_not x (by omega)]
  · simp [hi]

/-- Offsets that agree on the one field, as their images do, agree on the other. -/
theorem AddsField.eq_of_eq {x y z w : ℕ} (hz : Masks z n dst) (hw : Masks w n src) (hxy : x &&& z = y &&& z)
    (hf : f x &&& z = f y &&& z) : x &&& w = y &&& w := by
  refine eq_of_testBit_eq fun i => ?_
  rw [testBit_and, testBit_and, hw]
  by_cases hi : src ≤ i ∧ i < src + n
  · have hj : dst ≤ i - src + dst ∧ i - src + dst < dst + n := by omega
    have hback : i - src + dst - dst + src = i := by omega
    have hbit := congrArg (testBit · (i - src + dst)) hxy
    have hbits := congrArg (testBit · (i - src + dst)) hf
    simp only [testBit_and, hz _, h _ _, hj, hback, and_self, decide_true, Bool.and_true, Bool.true_and] at hbit hbits
    rw [hbit] at hbits
    rw [Bool.xor_right_inj.mp hbits]
  · simp [hi]

end

theorem shl_one {n : ℕ} (h : n ≤ 62) : shl 1 n = 2 ^ n := by
  rw [shl, shiftLeft_eq, one_mul, mod_eq_of_lt (Nat.pow_lt_pow_right (by decide) (by omega))]

theorem testBit_shl (a n i : ℕ) : (shl a n).testBit i = (decide (n ≤ i ∧ i < 64) && a.testBit (i - n)) := by
  rw [shl, testBit_mod_two_pow, testBit_shiftLeft]
  grind

theorem masks_shl {n low : ℕ} (h : low + n ≤ 62) : Masks (shl (shl 1 n - 1) low) n low := by
  intro i
  rw [testBit_shl, shl_one (by omega), testBit_two_pow_sub_one]
  grind

namespace Swizzle

variable {bits base : ℕ} {shift : ℤ}

theorem masks (hfit : base + bits + shift.natAbs ≤ 62) :
    Masks (init bits base shift).yyyMask bits (base + shift.toNat) ∧
      Masks (init bits base shift).zzzMask bits (base + (-shift).toNat) := by
  have hy : (base + max shift 0).toNat = base + shift.toNat := by omega
  have hz : (base - min shift 0).toNat = base + (-shift).toNat := by omega
  rw [init, hy, hz]
  exact ⟨masks_shl (by omega), masks_shl (by omega)⟩

theorem addsField (hfit : base + bits + shift.natAbs ≤ 62) :
    AddsField (init bits base shift).call bits (base + shift.toNat) (base + (-shift).toNat) := by
  intro x i
  rw [call, testBit_xor, shiftr]
  congr 1
  change (if shift > 0 then (x &&& _) >>> shift.toNat else shl (x &&& _) (-shift).toNat).testBit i = _
  split_ifs with hpos
  · have hbit : i - (base + (-shift).toNat) + (base + shift.toNat) = shift.toNat + i ∨ i < base := by omega
    rw [testBit_shiftRight, testBit_and, (masks hfit).1]
    grind
  · have hbit : i - (base + (-shift).toNat) + (base + shift.toNat) = i - (-shift).toNat ∨
        i < base + (-shift).toNat := by omega
    rw [testBit_shl, testBit_and, (masks hfit).1]
    grind

/-- **Swizzles permute blocks and separate rows.** -/
theorem swizzle_permutes (hshift : bits ≤ shift.natAbs) (hfit : base + bits + shift.natAbs ≤ 62) (x : ℕ) :
    let s := init bits base shift
    s.call (s.call x) = x ∧ s.call x / s.size = x / s.size ∧ s.call x % 2 ^ base = x % 2 ^ base ∧
      ∀ y, x &&& s.zzzMask = y &&& s.zzzMask → x &&& s.yyyMask ≠ y &&& s.yyyMask →
        s.call x &&& s.zzzMask ≠ s.call y &&& s.zzzMask := by
  have hadds := addsField hfit
  have hsize : (init bits base shift).size = 2 ^ (bits + base + shift.natAbs) :=
    shl_one (n := bits + base + shift.natAbs) (by omega)
  refine ⟨hadds.involutive (by omega) x, ?_, hadds.mod_two_pow (by omega) x, fun y hz => mt ?_⟩
  · rw [hsize]
    exact hadds.div_two_pow (by omega) x
  · exact hadds.eq_of_eq (masks hfit).2 (masks hfit).1 hz

/-- Rows of eight words, four rows: word 3 of row 2 comes to place 1 and back. -/
theorem swizzle_permutes_words : 3 ≤ (3 : ℤ).natAbs ∧ (init 3 0 3).call 19 = 17 ∧
    (init 3 0 3).call ((init 3 0 3).call 19) = 19 :=
  ⟨by decide, by decide, (swizzle_permutes (by decide) (by decide) 19).1⟩

end Swizzle

end MojoProse.Layouts
