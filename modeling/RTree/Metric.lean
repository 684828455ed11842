import RTree.Scalar

namespace RTree

variable {α : Type} [Scalar α]

/-- How the differences along the axes make one distance. -/
inductive Metric where
  /-- The sum of the differences. -/
  | manhattan
  /-- The root of the sum of squares. -/
  | euclidean
  /-- The sum of squares, without the root: the same order of distances. -/
  | squaredEuclidean
  /-- The largest difference. -/
  | chebyshev
  deriving DecidableEq

namespace Metric

instance : Inhabited Metric := ⟨euclidean⟩

/-- The length of a vector given by the absolute values of its entries. -/
def combine : Metric → List α → α
  | manhattan, ds => Scalar.sum ds
  | euclidean, ds => Scalar.sqrt (Scalar.sum (ds.map fun d => d * d))
  | squaredEuclidean, ds => Scalar.sum (ds.map fun d => d * d)
  | chebyshev, ds => ds.foldl Scalar.max Scalar.zero

def norm (m : Metric) (v : List α) : α := m.combine (v.map Scalar.abs)

def distance (m : Metric) (p q : List α) : α :=
  m.combine (List.zipWith (fun x y => Scalar.abs (x - y)) p q)

def symbol : Metric → String
  | manhattan => "L1"
  | euclidean => "L2"
  | squaredEuclidean => "L2^2"
  | chebyshev => "Linf"

instance : ToString Metric := ⟨symbol⟩

end Metric

end RTree
