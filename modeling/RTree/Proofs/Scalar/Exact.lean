import RTree.Proofs.Scalar.Ordered
import Mathlib.Algebra.BigOperators.Group.List.Basic
import Mathlib.Algebra.Order.Ring.Rat
import Mathlib.Data.Rat.Floor

namespace RTree

inductive Exact where
  | finite (q : Rat)
  | infinity
  | negInfinity
  | noNumber
  deriving DecidableEq

/-- What stands in for the square root of a rational number. -/
class SquareRoot where
  root : Rat → Rat

namespace Exact

def sign : Exact → Int
  | finite q => if 0 < q then 1 else if q < 0 then -1 else 0
  | infinity => 1
  | negInfinity => -1
  | noNumber => 0

def unbounded (sign : Int) : Exact :=
  if 0 < sign then infinity else if sign < 0 then negInfinity else noNumber

def neg : Exact → Exact
  | finite q => finite (-q)
  | infinity => negInfinity
  | negInfinity => infinity
  | noNumber => noNumber

def add : Exact → Exact → Exact
  | finite a, finite b => finite (a + b)
  | noNumber, _ | _, noNumber => noNumber
  | infinity, negInfinity | negInfinity, infinity => noNumber
  | infinity, _ | _, infinity => infinity
  | negInfinity, _ | _, negInfinity => negInfinity

def mul : Exact → Exact → Exact
  | finite a, finite b => finite (a * b)
  | a, b => unbounded (a.sign * b.sign)

/-- Zero counts as positive where it is divided by. -/
def div : Exact → Exact → Exact
  | finite a, finite b => if b = 0 then unbounded (finite a).sign else finite (a / b)
  | finite _, infinity | finite _, negInfinity => finite 0
  | infinity, finite b => if b < 0 then negInfinity else infinity
  | negInfinity, finite b => if b < 0 then infinity else negInfinity
  | _, _ => noNumber

def le : Exact → Exact → Bool
  | finite a, finite b => decide (a ≤ b)
  | noNumber, _ | _, noNumber => false
  | negInfinity, _ | _, infinity => true
  | _, _ => false

def abs : Exact → Exact
  | finite q => finite |q|
  | infinity | negInfinity => infinity
  | noNumber => noNumber

def sqrt [SquareRoot] : Exact → Exact
  | finite q => if q < 0 then noNumber else finite (SquareRoot.root q)
  | infinity => infinity
  | _ => noNumber

/-- The whole part as a 64-bit count. -/
def wholePart : Exact → Nat
  | finite q => Nat.min ⌊q⌋.toNat (2 ^ 64 - 1)
  | infinity => 2 ^ 64 - 1
  | _ => 0

def isFinite : Exact → Bool
  | finite _ => true
  | _ => false

end Exact

instance [SquareRoot] : Scalar Exact where
  add := Exact.add
  sub := fun a b => a.add b.neg
  mul := Exact.mul
  div := Exact.div
  lt := fun a b => (a.le b && !b.le a) = true
  le := fun a b => a.le b = true
  beq := fun a b => a.le b && b.le a
  decLt := fun _ _ => inferInstanceAs (Decidable (_ = true))
  decLe := fun _ _ => inferInstanceAs (Decidable (_ = true))
  zero := .finite 0
  one := .finite 1
  two := .finite 2
  top := .infinity
  bottom := .negInfinity
  abs := Exact.abs
  sqrt := Exact.sqrt
  isFinite := Exact.isFinite
  ofNat := fun n => .finite n
  wholePart := Exact.wholePart

namespace Exact

variable [SquareRoot] {a b : Exact} {q r : Rat}

theorem le_def : a ≤ b ↔ a.le b = true := Iff.rfl

theorem beq_def : (a == b) = (a.le b && b.le a) := rfl

theorem lt_def : a < b ↔ a.le b = true ∧ b.le a = false := by
  show (a.le b && !b.le a) = true ↔ _
  rw [Bool.and_eq_true, Bool.not_eq_true']

theorem isNumber_iff : Scalar.isNumber a = true ↔ a ≠ .noNumber := by
  cases a <;> simp [Scalar.isNumber, beq_def, le]

end Exact

instance [SquareRoot] : OrderedScalar Exact where
  le_trans {a b c} hab hbc := by
    rw [Exact.le_def] at *
    cases a <;> cases b <;> cases c <;> simp_all [Exact.le]
    exact le_trans hab hbc
  le_total {a b} ha hb := by
    rw [Exact.isNumber_iff] at ha hb
    simp only [Exact.le_def]
    cases a <;> cases b <;> simp_all [Exact.le]
    exact le_total _ _
  isNumber_of_le {a b} h := by
    rw [Exact.isNumber_iff, Exact.isNumber_iff]
    rw [Exact.le_def] at h
    cases a <;> cases b <;> simp_all [Exact.le]
  lt_iff {a b} := by
    rw [Exact.isNumber_iff, Exact.isNumber_iff, Exact.lt_def, Exact.le_def]
    cases a <;> cases b <;> simp [Exact.le]
    exact fun h => h.le
  beq_iff {a b} := by
    rw [Exact.beq_def, Bool.and_eq_true]
    exact Iff.rfl
  isNumber_top := rfl
  isNumber_bottom := rfl
  le_top {a} h := by
    rw [Exact.isNumber_iff] at h
    cases a <;> first | rfl | exact absurd rfl h
  bottom_le {a} h := by
    rw [Exact.isNumber_iff] at h
    cases a <;> first | rfl | exact absurd rfl h
  isNumber_of_isFinite {a} h := by
    cases a with
    | finite q => simp [Exact.isNumber_iff]
    | _ => cases h

namespace Exact

open Scalar (isNumber)

variable [SquareRoot]

@[simp] theorem finite_add (a b : Rat) : finite a + finite b = finite (a + b) := rfl

@[simp] theorem finite_sub (a b : Rat) : finite a - finite b = finite (a - b) :=
  congrArg finite (sub_eq_add_neg a b).symm

@[simp] theorem finite_mul (a b : Rat) : finite a * finite b = finite (a * b) := rfl

theorem finite_div (a : Rat) {b : Rat} (h : b ≠ 0) : finite a / finite b = finite (a / b) :=
  if_neg h

@[simp] theorem finite_le (a b : Rat) : finite a ≤ finite b ↔ a ≤ b := decide_eq_true_iff

@[simp] theorem finite_lt (a b : Rat) : finite a < finite b ↔ a < b := by
  rw [lt_def]
  simp only [le, decide_eq_true_iff, decide_eq_false_iff_not, not_le]
  exact ⟨And.right, fun h => ⟨h.le, h⟩⟩

theorem isFinite_iff {a : Exact} : Scalar.isFinite a = true ↔ ∃ q, a = finite q := by
  cases a <;> simp [Scalar.isFinite, isFinite]

/-- Values that count as equal are equal. -/
theorem eq_of_beq {a b : Exact} (h : (a == b) = true) : a = b := by
  rw [beq_def, Bool.and_eq_true] at h
  cases a <;> cases b <;> simp_all [le]
  exact le_antisymm h.1 h.2

@[simp] theorem min_finite (a b : Rat) : Scalar.min (finite a) (finite b) = finite (min a b) := by
  unfold Scalar.min
  have hnumber : isNumber (finite a) = true := isNumber_iff.mpr (by simp)
  rw [hnumber, min_def]
  simp only [finite_lt, Bool.not_true, Bool.or_false, decide_eq_true_iff, ← not_le, ite_not]
  split <;> rfl

@[simp] theorem max_finite (a b : Rat) : Scalar.max (finite a) (finite b) = finite (max a b) := by
  unfold Scalar.max
  have hnumber : isNumber (finite a) = true := isNumber_iff.mpr (by simp)
  rw [hnumber, max_def]
  simp only [finite_lt, Bool.not_true, Bool.or_false, decide_eq_true_iff]
  split
  · rename_i h
    rw [if_pos h.le]
  · rename_i h
    split
    · rename_i hle
      exact congrArg finite (le_antisymm hle (not_lt.mp h))
    · rfl

theorem product_finite (qs : List Rat) : Scalar.product (qs.map finite) = finite qs.prod := by
  have hfold : ∀ q : Rat, (qs.map finite).foldl (· * ·) (finite q) = finite (q * qs.prod) := by
    induction qs with
    | nil => simp
    | cons a qs ih =>
      intro q
      rw [List.map_cons, List.foldl_cons, finite_mul, ih, List.prod_cons, mul_assoc]
  exact (hfold 1).trans (by rw [one_mul])

end Exact

end RTree
