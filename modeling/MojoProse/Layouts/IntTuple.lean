import MojoProse.Schemes.MixedRadix

/-!
# Nested integer tuples

`IntTuple` of the layout package: a single integer, or a tuple of further tuples. An integer is its
own only element, while a tuple that was built by appending one integer stays a tuple.
-/

namespace MojoProse.Layouts

/-- `UNKNOWN_VALUE`: the marker of a dimension that is only known at run time. -/
def unknownValue : ℤ := -1

inductive Fault where
  /-- An element was read past the end of a tuple. -/
  | indexOutOfBounds
  /-- `abort("Complement out of bounds.")` -/
  | complementOutOfBounds
  deriving DecidableEq, Repr

inductive IntTuple where
  | value (v : ℤ)
  | tuple (elems : List IntTuple)

namespace IntTuple

def elems : IntTuple → List IntTuple
  | value v => [value v]
  | tuple ts => ts

mutual
/-- `flatten`: the integers of a tuple from left to right. -/
def leaves : IntTuple → List ℤ
  | value v => [v]
  | tuple ts => leavesAll ts
def leavesAll : List IntTuple → List ℤ
  | [] => []
  | t :: ts => t.leaves ++ leavesAll ts
end

mutual
/-- `product`: all integers multiplied; once an unknown shows up the result stays unknown. -/
def product : IntTuple → ℤ
  | value v => v
  | tuple ts => productFrom 1 ts
def productFrom (acc : ℤ) : List IntTuple → ℤ
  | [] => acc
  | t :: ts => productFrom (if acc = unknownValue then unknownValue else acc * t.product) ts
end

mutual
/-- `depth`, which counts the tuples inside a tuple, itself included. -/
def depth : IntTuple → ℕ
  | value _ => 0
  | tuple ts => depthFrom 1 ts
def depthFrom (res : ℕ) : List IntTuple → ℕ
  | [] => res
  | t :: ts => depthFrom (res + t.depth) ts
end

mutual
/-- `congruent`: two tuples of one nesting. -/
def congruent : IntTuple → IntTuple → Bool
  | value _, value _ => true
  | tuple ts, tuple us => congruentAll ts us
  | _, _ => false
def congruentAll : List IntTuple → List IntTuple → Bool
  | [], [] => true
  | t :: ts, u :: us => congruent t u && congruentAll ts us
  | _, _ => false
end

def AllPositive (t : IntTuple) : Prop := ∀ v ∈ t.leaves, 0 < v

mutual
theorem product_eq : ∀ {t : IntTuple}, (∀ v ∈ t.leaves, 0 < v) → t.product = t.leaves.prod
  | value v, _ => by simp [product, leaves]
  | tuple ts, h => by
    rw [product, productFrom_eq one_pos h, one_mul, leaves]
theorem productFrom_eq : ∀ {ts : List IntTuple} {acc : ℤ}, 0 < acc →
    (∀ v ∈ leavesAll ts, 0 < v) → productFrom acc ts = acc * (leavesAll ts).prod
  | [], acc, _, _ => by simp [productFrom, leavesAll]
  | t :: ts, acc, hacc, h => by
    simp only [leavesAll, List.mem_append, or_imp, forall_and] at h
    have hne : acc ≠ unknownValue := by
      rw [unknownValue]
      omega
    have hprod := product_eq h.1
    have hpos : 0 < acc * t.product := by
      rw [hprod]
      exact mul_pos hacc (List.prod_pos h.1)
    rw [productFrom, if_neg hne, productFrom_eq hpos h.2, hprod, leavesAll, List.prod_append, mul_assoc]
end

end IntTuple

end MojoProse.Layouts
