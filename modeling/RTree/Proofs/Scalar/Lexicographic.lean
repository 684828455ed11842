import RTree.Proofs.Champion
import RTree.Proofs.Scalar.Steady

namespace RTree

namespace Scalar

open OrderedScalar

variable {α : Type} [Scalar α]

def lexLt (a b : α × α) : Bool :=
  decide (a.1 < b.1) || (a.1 == b.1 && decide (a.2 < b.2))

theorem lexLt_iff {a b : α × α} :
    lexLt a b = true ↔ a.1 < b.1 ∨ (a.1 == b.1) = true ∧ a.2 < b.2 := by
  simp [lexLt]

variable [OrderedScalar α] {a b : α × α}

theorem not_lt_self (v : α) : ¬ v < v := by
  simpa [lt_iff] using le_self_iff.mpr

theorem not_lt_of_lt {v w : α} (h : v < w) : ¬ w < v := fun h' =>
  (lt_iff.mp h).2.2 (le_of_lt h')

theorem beq_eq_false_of_lt {v w : α} (h : v < w) : (v == w) = false := by
  rw [← Bool.not_eq_true, beq_iff, not_and]
  exact fun _ => (lt_iff.mp h).2.2

theorem not_lt_of_beq {v w : α} (h : (v == w) = true) : ¬ v < w := fun hlt =>
  (lt_iff.mp hlt).2.2 (ge_of_beq h)

/-- One of two numbers is less, or they count as equal. -/
theorem lt_or_beq_or_lt {v w : α} (hv : isNumber v = true) (hw : isNumber w = true) :
    v < w ∨ (v == w) = true ∨ w < v := by
  by_cases hlt : v < w
  · exact .inl hlt
  · by_cases hgt : w < v
    · exact .inr (.inr hgt)
    · exact .inr (.inl (beq_iff.mpr ⟨le_of_not_lt hv hw hgt, le_of_not_lt hw hv hlt⟩))

theorem strictOrder_lt : StrictOrder fun a b : α => decide (a < b) where
  irrefl a := decide_eq_false (not_lt_self a)
  trans h h' := by
    rw [decide_eq_true_eq] at h h' ⊢
    exact lt_of_lt_of_le h (le_of_lt h')

/-- Numbers can all be compared. -/
theorem graded_lt {β : Type} {f : β → α} {xs : List β}
    (h : ∀ x ∈ xs, isNumber (f x) = true) : Graded (fun x y => decide (f x < f y)) xs := by
  intro x _ y hy z hz hxy hzy
  rw [decide_eq_true_eq] at hxy ⊢
  rw [decide_eq_false_iff_not] at hzy
  exact lt_of_lt_of_le hxy (le_of_not_lt (h y hy) (h z hz) hzy)

theorem strictOrder_lexLt : StrictOrder (lexLt (α := α)) where
  irrefl a := by simp [lexLt, not_lt_self]
  trans := by
    intro a b c hab hbc
    rw [lexLt_iff] at *
    rcases hab with hab | ⟨hab, hlast⟩ <;> rcases hbc with hbc | ⟨hbc, hlast'⟩
    · exact .inl (lt_of_lt_of_le hab (le_of_lt hbc))
    · exact .inl (lt_of_lt_of_le hab (le_of_beq hbc))
    · exact .inl (lt_of_le_of_lt (le_of_beq hab) hbc)
    · exact .inr ⟨beq_trans hab hbc, lt_of_lt_of_le hlast (le_of_lt hlast')⟩

/-- Nothing comes before two values at the bottom. -/
theorem not_lexLt_bottom (a : α × α) :
    lexLt a (Scalar.bottom, Scalar.bottom) = false := by
  have hnot : ∀ v : α, ¬ v < Scalar.bottom := fun v hv =>
    (lt_iff.mp hv).2.2 (bottom_le (lt_iff.mp hv).1)
  rw [← Bool.not_eq_true, lexLt_iff, not_or, not_and]
  exact ⟨hnot _, fun _ => hnot _⟩

theorem not_beq_of_lexLt (h : lexLt a b = true) : (a == b) = false := by
  show (a.1 == b.1 && a.2 == b.2) = false
  rcases lexLt_iff.mp h with hfirst | ⟨-, hlast⟩
  · rw [beq_eq_false_of_lt hfirst, Bool.false_and]
  · rw [beq_eq_false_of_lt hlast, Bool.and_false]

/-- Of two pairs of numbers, one that does not come after the other comes before it or counts as
equal. -/
theorem le_of_not_lexLt (ha : isNumber a.1 = true ∧ isNumber a.2 = true)
    (hb : isNumber b.1 = true ∧ isNumber b.2 = true) (h : lexLt b a = false) :
    a.1 < b.1 ∨ (a.1 == b.1) = true ∧ a.2 ≤ b.2 := by
  rw [← Bool.not_eq_true, lexLt_iff, not_or, not_and] at h
  obtain ⟨hfirst, hlast⟩ := h
  have hle := le_of_not_lt ha.1 hb.1 hfirst
  by_cases hge : b.1 ≤ a.1
  · have hbeq := beq_iff.mpr ⟨hle, hge⟩
    exact .inr ⟨hbeq, le_of_not_lt ha.2 hb.2 (hlast (beq_symm hbeq))⟩
  · exact .inl (lt_iff.mpr ⟨ha.1, hb.1, hge⟩)

/-- Pairs of numbers can all be compared. -/
theorem graded_lexLt {β : Type} {f : β → α × α} {xs : List β}
    (h : ∀ x ∈ xs, isNumber (f x).1 = true ∧ isNumber (f x).2 = true) :
    Graded (fun x y => lexLt (f x) (f y)) xs := by
  intro x _ y hy z hz hxy hzy
  rw [lexLt_iff] at hxy ⊢
  rcases le_of_not_lexLt (h y hy) (h z hz) hzy with hyz | ⟨hyz, hlast'⟩
  · rcases hxy with hxy | ⟨hxy, -⟩
    · exact .inl (lt_of_lt_of_le hxy (le_of_lt hyz))
    · exact .inl (lt_of_le_of_lt (le_of_beq hxy) hyz)
  · rcases hxy with hxy | ⟨hxy, hlast⟩
    · exact .inl (lt_of_lt_of_le hxy (le_of_beq hyz))
    · exact .inr ⟨beq_trans hxy hyz, lt_of_lt_of_le hlast hlast'⟩

end Scalar

end RTree
