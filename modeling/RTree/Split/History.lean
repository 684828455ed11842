
namespace RTree

/-- The axes used so far and the one used last. -/
structure SplitHistory where
  used : List Bool
  last : Nat
  deriving DecidableEq

namespace SplitHistory

/-- Before the first split; axis 0 stands for the last one. -/
def blank (dimension : Nat) : SplitHistory := ⟨List.replicate dimension false, 0⟩

/-- Whether the axis has been split along; no axis outside the dimension has. -/
def uses (h : SplitHistory) (axis : Nat) : Bool := h.used.getD axis false

/-- The history after one more split; an axis outside the dimension becomes the last one only. -/
def extend (h : SplitHistory) (axis : Nat) : SplitHistory := ⟨h.used.set axis true, axis⟩

@[simp] theorem uses_blank (dimension axis : Nat) : (blank dimension).uses axis = false := by
  simp [blank, uses, List.getElem?_replicate]
  split <;> rfl

@[simp] theorem last_extend (h : SplitHistory) (axis : Nat) : (h.extend axis).last = axis :=
  rfl

/-- A split marks its own axis and forgets none. -/
theorem uses_extend (h : SplitHistory) (axis other : Nat) :
    (h.extend axis).uses other =
      ((decide (axis = other) && decide (axis < h.used.length)) || h.uses other) := by
  simp only [extend, uses, List.getD_eq_getElem?_getD, List.getElem?_set]
  by_cases ha : axis = other
  · subst ha
    by_cases hl : axis < h.used.length <;> simp [hl]
  · simp [ha]

end SplitHistory

end RTree
