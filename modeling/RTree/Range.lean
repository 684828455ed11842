import RTree.Scalar

namespace RTree

/-- The values between two edges, both included; none when the lower edge is above the upper one. -/
structure Range (α : Type) where
  lo : α
  hi : α

namespace Range

variable {α : Type} [Scalar α]

instance : BEq (Range α) := ⟨fun r s => r.lo == s.lo && r.hi == s.hi⟩

/-- The range without values that every union leaves out of account. -/
def empty : Range α := ⟨Scalar.top, Scalar.bottom⟩

def single (v : α) : Range α := ⟨v, v⟩

def isEmpty (r : Range α) : Bool := decide (r.hi < r.lo)

/-- The distance of the edges; an empty range has none. -/
def width (r : Range α) : α := if r.isEmpty then Scalar.zero else r.hi - r.lo

def mid (r : Range α) : α := (r.lo + r.hi) / Scalar.two

def contains (r : Range α) (v : α) : Bool := decide (r.lo ≤ v) && decide (v ≤ r.hi)

def insert (r : Range α) (v : α) : Range α := ⟨Scalar.min r.lo v, Scalar.max r.hi v⟩

def union (r s : Range α) : Range α := ⟨Scalar.min r.lo s.lo, Scalar.max r.hi s.hi⟩

/-- The width of the common part, zero when there is none. -/
def overlap (r s : Range α) : α :=
  if r.hi < s.lo || s.hi < r.lo then Scalar.zero
  else Scalar.max (Scalar.min r.hi s.hi - Scalar.max r.lo s.lo) Scalar.zero

/-- Whether each value of `s` is one of `r`, for `s` with values. -/
def covers (r s : Range α) : Bool := decide (r.lo ≤ s.lo) && decide (s.hi ≤ r.hi)

/-- Whether the edges leave room for a common value, for ranges with values. -/
def meets (r s : Range α) : Bool := decide (r.lo ≤ s.hi) && decide (s.lo ≤ r.hi)

@[simp] theorem insert_eq_union (r : Range α) (v : α) : r.insert v = r.union (single v) := rfl

end Range

end RTree
