import RTree.Range

namespace RTree

/-- One range per axis. Two rectangles are compared, and overlap, on the axes that both have. -/
structure Rectangle (α : Type) where
  ranges : List (Range α)

namespace Rectangle

variable {α : Type} [Scalar α]

instance : BEq (Rectangle α) := ⟨fun r s => r.ranges == s.ranges⟩

def empty (d : Nat) : Rectangle α := ⟨List.replicate d Range.empty⟩

def ofPoint (p : List α) : Rectangle α := ⟨p.map Range.single⟩

def dim (r : Rectangle α) : Nat := r.ranges.length

/-- A rectangle holds no point once one of its ranges holds no value. -/
def isEmpty (r : Rectangle α) : Bool := r.ranges.any Range.isEmpty

def clear (r : Rectangle α) : Rectangle α := empty r.dim

/-- The least rectangle holding all of `r` and the point, which has a coordinate for each axis of
`r` wherever a tree takes it in; in general only the axes of both are left. -/
def insert (r : Rectangle α) (p : List α) : Rectangle α :=
  ⟨List.zipWith Range.insert r.ranges p⟩

/-- The least rectangle holding all of `r` and `s`, which are of one dimension wherever a tree takes
their union; in general only the axes of both are left. -/
def union (r s : Rectangle α) : Rectangle α := ⟨List.zipWith Range.union r.ranges s.ranges⟩

def contains (r : Rectangle α) (p : List α) : Bool :=
  (List.zipWith Range.contains r.ranges p).all id

/-- Whether `s` lies inside `r`; an empty rectangle lies inside all others. -/
def includes (r s : Rectangle α) : Bool :=
  s.isEmpty || (List.zipWith Range.covers r.ranges s.ranges).all id

/-- Whether the rectangles share a point; an empty one shares none. -/
def intersects (r s : Rectangle α) : Bool :=
  !r.isEmpty && !s.isEmpty && (List.zipWith Range.meets r.ranges s.ranges).all id

/-- The product of the widths, zero for an empty rectangle. -/
def volume (r : Rectangle α) : α :=
  if r.isEmpty then Scalar.zero else Scalar.product (r.ranges.map Range.width)

def margin (r : Rectangle α) : α := Scalar.sum (r.ranges.map Range.width)

/-- The volume of the common part, zero when one of the rectangles is empty. -/
def overlap (r s : Rectangle α) : α :=
  if r.isEmpty || s.isEmpty then Scalar.zero
  else Scalar.product (List.zipWith Range.overlap r.ranges s.ranges)

def pointEnlargement (r : Rectangle α) (p : List α) : α :=
  (r.insert p).volume - r.volume

def enlargement (r s : Rectangle α) : α := (r.union s).volume - r.volume

def center (r : Rectangle α) : List α := r.ranges.map Range.mid

@[simp] theorem dim_empty (d : Nat) : (empty d : Rectangle α).dim = d := by simp [empty, dim]

@[simp] theorem dim_clear (r : Rectangle α) : r.clear.dim = r.dim := by simp [clear]

omit [Scalar α] in
@[simp] theorem dim_ofPoint (p : List α) : (ofPoint p).dim = p.length := by simp [ofPoint, dim]

@[simp] theorem dim_union (r s : Rectangle α) : (r.union s).dim = min r.dim s.dim := by
  simp [union, dim]

@[simp] theorem dim_insert (r : Rectangle α) (p : List α) :
    (r.insert p).dim = min r.dim p.length := by simp [insert, dim]

theorem insert_eq_union (r : Rectangle α) (p : List α) :
    r.insert p = r.union (ofPoint p) := by
  obtain ⟨rs⟩ := r
  simp [insert, union, ofPoint, List.zipWith_map_right]
  rfl

end Rectangle

end RTree
