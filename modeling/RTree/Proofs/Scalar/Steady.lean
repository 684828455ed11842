import RTree.Proofs.Scalar.Ordered
import Mathlib.Data.List.Forall2

namespace RTree

open Scalar (isNumber)

variable {α : Type}

/-- The values count as equal, or neither is a number. -/
def Scalar.Alike [Scalar α] (a b : α) : Prop :=
  (a == b) = true ∨ isNumber a = false ∧ isNumber b = false

open Scalar (Alike)

/-- Operations that do not tell apart what counts as equal, as the two zeros do, and whose results
are not negative where the operands are not. A divisor has to be positive, for the two zeros divide
differently. -/
class SteadyScalar (α : Type) [Scalar α] : Prop extends OrderedScalar α where
  add_alike {a a' b b' : α} : Alike a a' → Alike b b' → Alike (a + b) (a' + b')
  sub_alike {a a' b b' : α} : Alike a a' → Alike b b' → Alike (a - b) (a' - b')
  mul_alike {a a' b b' : α} : Alike a a' → Alike b b' → Alike (a * b) (a' * b')
  div_alike {a a' b b' : α} :
    Alike a a' → Alike b b' → Scalar.zero < b → Alike (a / b) (a' / b')
  isNumber_of_mul {a b : α} : isNumber (a * b) = true → isNumber a = true ∧ isNumber b = true
  isNumber_of_div {a b : α} : isNumber (a / b) = true → isNumber a = true
  mul_nonneg {a b : α} : Scalar.zero ≤ a → Scalar.zero ≤ b → isNumber (a * b) = true →
    Scalar.zero ≤ a * b
  div_nonneg {a b : α} : Scalar.zero ≤ a → Scalar.zero < b → isNumber (a / b) = true →
    Scalar.zero ≤ a / b
  zero_le_one : (Scalar.zero : α) ≤ Scalar.one

namespace Scalar

open OrderedScalar SteadyScalar

section Order

variable [Scalar α] {a a' b b' c : α}

theorem Alike.refl (a : α) : Alike a a := by
  cases h : isNumber a with
  | true => exact .inl h
  | false => exact .inr ⟨h, h⟩

variable [OrderedScalar α]

theorem isNumber_of_beq (h : (a == b) = true) : isNumber a = true ∧ isNumber b = true :=
  isNumber_of_le (beq_iff.mp h).1

theorem Alike.isNumber_eq (h : Alike a b) : isNumber a = isNumber b := by
  rcases h with h | ⟨ha, hb⟩
  · rw [(isNumber_of_beq h).1, (isNumber_of_beq h).2]
  · rw [ha, hb]

omit [OrderedScalar α] in
/-- A number counts as equal to what it is alike. -/
theorem Alike.beq (h : Alike a b) (ha : isNumber a = true) : (a == b) = true := by
  rcases h with h | ⟨hn, -⟩
  · exact h
  · rw [ha] at hn
    cases hn

theorem beq_symm (h : (a == b) = true) : (b == a) = true :=
  beq_iff.mpr (beq_iff.mp h).symm

theorem le_of_beq (h : (a == b) = true) : a ≤ b := (beq_iff.mp h).1

theorem ge_of_beq (h : (a == b) = true) : b ≤ a := (beq_iff.mp h).2

theorem beq_trans (h : (a == b) = true) (h' : (b == c) = true) : (a == c) = true :=
  beq_iff.mpr ⟨le_trans (le_of_beq h) (le_of_beq h'), le_trans (ge_of_beq h') (ge_of_beq h)⟩

theorem Alike.symm (h : Alike a b) : Alike b a := by
  rcases h with h | ⟨ha, hb⟩
  · exact .inl (beq_symm h)
  · exact .inr ⟨hb, ha⟩

theorem le_of_lt (h : a < b) : a ≤ b := by
  obtain ⟨ha, hb, hn⟩ := lt_iff.mp h
  exact (le_total ha hb).resolve_right hn

theorem lt_of_lt_of_le (h : a < b) (h' : b ≤ c) : a < c := by
  obtain ⟨ha, hb, hn⟩ := lt_iff.mp h
  refine lt_iff.mpr ⟨ha, (isNumber_of_le h').2, ?_⟩
  intro hc
  exact hn (le_trans h' hc)

theorem lt_of_le_of_lt (h : a ≤ b) (h' : b < c) : a < c := by
  obtain ⟨hb, hc, hn⟩ := lt_iff.mp h'
  refine lt_iff.mpr ⟨(isNumber_of_le h).1, hc, ?_⟩
  intro hca
  exact hn (le_trans hca h)

theorem Alike.lt_of_lt (ha : Alike a a') (hb : Alike b b') (h : a < b) : a' < b' := by
  obtain ⟨hna, hnb, -⟩ := lt_iff.mp h
  have hle := (beq_iff.mp (ha.beq hna)).2
  have hge := (beq_iff.mp (hb.beq hnb)).1
  exact lt_of_lt_of_le (lt_of_le_of_lt hle h) hge

theorem Alike.lt_iff_lt (ha : Alike a a') (hb : Alike b b') : a < b ↔ a' < b' :=
  ⟨ha.lt_of_lt hb, ha.symm.lt_of_lt hb.symm⟩

theorem Alike.min (ha : Alike a a') (hb : Alike b b') :
    Alike (Scalar.min a b) (Scalar.min a' b') := by
  unfold Scalar.min
  simp only [hb.lt_iff_lt ha, ha.isNumber_eq]
  split
  · exact hb
  · exact ha

theorem Alike.max (ha : Alike a a') (hb : Alike b b') :
    Alike (Scalar.max a b) (Scalar.max a' b') := by
  unfold Scalar.max
  simp only [ha.lt_iff_lt hb, ha.isNumber_eq]
  split
  · exact hb
  · exact ha

/-- The larger of a value and a number is at least the number. -/
theorem le_max_right (a : α) (hb : isNumber b = true) : b ≤ Scalar.max a b := by
  unfold Scalar.max
  split
  · exact le_self_iff.mpr hb
  · rename_i h
    rw [Bool.not_eq_true, Bool.or_eq_false_iff] at h
    have ha : isNumber a = true := by simpa using h.2
    have hn : ¬ a < b := by simpa using h.1
    rw [lt_iff] at hn
    by_contra hle
    exact hn ⟨ha, hb, hle⟩

end Order

section Arithmetic

variable [Scalar α] [SteadyScalar α]

theorem sum_alike {xs ys : List α} (h : List.Forall₂ Alike xs ys) : Alike (sum xs) (sum ys) := by
  have hfold : ∀ {a b : α}, Alike a b → Alike (xs.foldl (· + ·) a) (ys.foldl (· + ·) b) := by
    induction h with
    | nil => exact id
    | cons hxy _ ih => exact fun hab => ih (add_alike hab hxy)
  exact hfold (.refl _)

theorem foldl_mul_alike {xs ys : List α} (h : List.Forall₂ Alike xs ys) {a b : α}
    (hab : Alike a b) : Alike (xs.foldl (· * ·) a) (ys.foldl (· * ·) b) := by
  induction h generalizing a b with
  | nil => exact hab
  | cons hxy _ ih => exact ih (mul_alike hab hxy)

theorem product_alike {xs ys : List α} (h : List.Forall₂ Alike xs ys) :
    Alike (product xs) (product ys) := foldl_mul_alike h (Alike.refl _)

theorem foldl_mul_nonneg {xs : List α} (hxs : ∀ x ∈ xs, zero ≤ x) {a : α} (ha : zero ≤ a)
    (hn : isNumber (xs.foldl (· * ·) a) = true) : zero ≤ xs.foldl (· * ·) a := by
  have hstart : ∀ (xs : List α) (a : α), isNumber (xs.foldl (· * ·) a) = true →
      isNumber a = true := by
    intro xs
    induction xs with
    | nil => exact fun _ h => h
    | cons x xs ih => exact fun a h => (isNumber_of_mul (ih (a * x) h)).1
  induction xs generalizing a with
  | nil => exact ha
  | cons x xs ih =>
    have hax : zero ≤ a * x := mul_nonneg ha (hxs x (by simp)) (hstart xs (a * x) hn)
    exact ih (fun y hy => hxs y (by simp [hy])) hax hn

/-- A product of values that are not negative is not negative, if it is a number at all. -/
theorem product_nonneg {xs : List α} (hxs : ∀ x ∈ xs, zero ≤ x)
    (hn : isNumber (product xs) = true) : zero ≤ product xs :=
  foldl_mul_nonneg hxs SteadyScalar.zero_le_one hn

end Arithmetic

end Scalar

end RTree
