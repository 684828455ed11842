import RTree.Metric
import RTree.Rectangle

namespace RTree

namespace Range

variable {α : Type} [Scalar α]

def gapTo (r : Range α) (v : α) : α :=
  Scalar.max (Scalar.max (r.lo - v) (v - r.hi)) Scalar.zero

/-- How far `v` lies from the farther edge. -/
def spanTo (r : Range α) (v : α) : α :=
  Scalar.max (Scalar.abs (v - r.lo)) (Scalar.abs (r.hi - v))

def gap (r s : Range α) : α :=
  Scalar.max (Scalar.max (s.lo - r.hi) (r.lo - s.hi)) Scalar.zero

/-- The greatest difference between values of two ranges. -/
def span (r s : Range α) : α :=
  Scalar.max (Scalar.abs (s.hi - r.lo)) (Scalar.abs (r.hi - s.lo))

end Range

namespace Rectangle

variable {α : Type} [Scalar α]

def diameter (m : Metric) (r : Rectangle α) : α := m.norm (r.ranges.map Range.width)

def pointMinDist (m : Metric) (r : Rectangle α) (p : List α) : α :=
  if r.isEmpty then Scalar.top else m.norm (List.zipWith Range.gapTo r.ranges p)

/-- The distance from the point to the farthest corner of the rectangle. -/
def pointMaxDist (m : Metric) (r : Rectangle α) (p : List α) : α :=
  if r.isEmpty then Scalar.top else m.norm (List.zipWith Range.spanTo r.ranges p)

/-- The distance between the closest points of two rectangles. An empty rectangle is infinitely far
from everything. -/
def minDist (m : Metric) (r s : Rectangle α) : α :=
  if r.isEmpty || s.isEmpty then Scalar.top else m.norm (List.zipWith Range.gap r.ranges s.ranges)

def maxDist (m : Metric) (r s : Rectangle α) : α :=
  if r.isEmpty || s.isEmpty then Scalar.top else m.norm (List.zipWith Range.span r.ranges s.ranges)

end Rectangle

end RTree
