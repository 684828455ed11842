import RTree.Range

namespace RTree

open Scalar (isNumber)

/-- Comparisons that order all values except those that are no number. Nothing is asked of sums,
products, quotients and roots: whatever they answer decides which nodes a point goes to, never
whether it is found there. -/
class OrderedScalar (α : Type) [Scalar α] : Prop where
  le_trans {a b c : α} : a ≤ b → b ≤ c → a ≤ c
  le_total {a b : α} : isNumber a = true → isNumber b = true → a ≤ b ∨ b ≤ a
  isNumber_of_le {a b : α} : a ≤ b → isNumber a = true ∧ isNumber b = true
  lt_iff {a b : α} : a < b ↔ isNumber a = true ∧ isNumber b = true ∧ ¬ b ≤ a
  /-- Two values count as equal when each is at most the other; they may still be different. -/
  beq_iff {a b : α} : (a == b) = true ↔ a ≤ b ∧ b ≤ a
  isNumber_top : isNumber (Scalar.top : α) = true
  isNumber_bottom : isNumber (Scalar.bottom : α) = true
  le_top {a : α} : isNumber a = true → a ≤ Scalar.top
  bottom_le {a : α} : isNumber a = true → Scalar.bottom ≤ a
  isNumber_of_isFinite {a : α} : Scalar.isFinite a = true → isNumber a = true

namespace Scalar

open OrderedScalar

variable {α : Type} [Scalar α] [OrderedScalar α]

instance : Trans (α := α) (· ≤ ·) (· ≤ ·) (· ≤ ·) := ⟨le_trans⟩

theorem le_self_iff {a : α} : a ≤ a ↔ isNumber a = true :=
  ⟨fun h => (isNumber_of_le h).1, fun h => (le_total h h).elim id id⟩

/-- Numbers can be compared. -/
theorem le_of_not_lt {a b : α} (ha : isNumber a = true) (hb : isNumber b = true)
    (h : ¬ b < a) : a ≤ b := by
  rw [lt_iff] at h
  exact Classical.not_not.mp fun hle => h ⟨hb, ha, hle⟩

omit [OrderedScalar α] in
theorem min_min_right (a b : α) : Scalar.min (Scalar.min a b) b = Scalar.min a b := by
  by_cases h : (decide (b < a) || !isNumber a) = true
  · have hmin : Scalar.min a b = b := if_pos h
    rw [hmin]
    unfold Scalar.min
    split <;> rfl
  · have hmin : Scalar.min a b = a := if_neg h
    rw [hmin, hmin]

omit [OrderedScalar α] in
theorem max_max_right (a b : α) : Scalar.max (Scalar.max a b) b = Scalar.max a b := by
  by_cases h : (decide (a < b) || !isNumber a) = true
  · have hmax : Scalar.max a b = b := if_pos h
    rw [hmax]
    unfold Scalar.max
    split <;> rfl
  · have hmax : Scalar.max a b = a := if_neg h
    rw [hmax, hmax]

omit [OrderedScalar α] in
theorem isNumber_min {a b : α} (ha : isNumber a = true) (hb : isNumber b = true) :
    isNumber (Scalar.min a b) = true := by
  unfold Scalar.min
  split <;> assumption

omit [OrderedScalar α] in
theorem isNumber_max {a b : α} (ha : isNumber a = true) (hb : isNumber b = true) :
    isNumber (Scalar.max a b) = true := by
  unfold Scalar.max
  split <;> assumption

/-- The smaller of two numbers is their greatest lower bound. -/
theorem le_min_iff {a b x : α} (ha : isNumber a = true) (hb : isNumber b = true) :
    x ≤ Scalar.min a b ↔ x ≤ a ∧ x ≤ b := by
  have hlt : b < a ↔ ¬ a ≤ b := by simp [lt_iff, ha, hb]
  by_cases h : b < a
  · have hm : Scalar.min a b = b := by simp [Scalar.min, h]
    have hle : b ≤ a := (le_total ha hb).resolve_left (hlt.mp h)
    rw [hm]
    exact ⟨fun hx => ⟨le_trans hx hle, hx⟩, fun hx => hx.2⟩
  · have hm : Scalar.min a b = a := by simp [Scalar.min, h, ha]
    have hle : a ≤ b := by simpa [hlt] using h
    rw [hm]
    exact ⟨fun hx => ⟨hx, le_trans hx hle⟩, fun hx => hx.1⟩

/-- The larger of two numbers is their least upper bound. -/
theorem max_le_iff {a b x : α} (ha : isNumber a = true) (hb : isNumber b = true) :
    Scalar.max a b ≤ x ↔ a ≤ x ∧ b ≤ x := by
  have hlt : a < b ↔ ¬ b ≤ a := by simp [lt_iff, ha, hb]
  by_cases h : a < b
  · have hm : Scalar.max a b = b := by simp [Scalar.max, h]
    have hle : a ≤ b := (le_total ha hb).resolve_right (hlt.mp h)
    rw [hm]
    exact ⟨fun hx => ⟨le_trans hle hx, hx⟩, fun hx => hx.2⟩
  · have hm : Scalar.max a b = a := by simp [Scalar.max, h, ha]
    have hle : b ≤ a := by simpa [hlt] using h
    rw [hm]
    exact ⟨fun hx => ⟨hx, le_trans hle hx⟩, fun hx => hx.1⟩

end Scalar

end RTree
