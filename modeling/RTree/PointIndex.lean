import RTree.Tree.Points

namespace RTree

class PointIndex (ι : Type) (α : outParam Type) where
  /-- Adds a point and answers its number. -/
  insert : List α → EStateM (Failure α) ι PointId
  /-- Removes a point; answers whether it was there. -/
  remove : PointId → EStateM (Failure α) ι Bool
  contains : ι → PointId → Bool
  /-- The points inside a rectangle. -/
  within : ι → Rectangle α → Except (Failure α) (List PointId)
  /-- The number of points. -/
  size : ι → Nat
  /-- Removes all points. -/
  clear : ι → ι

instance {α : Type} [Scalar α] : PointIndex (Tree α) α where
  insert := TreeM.insert
  remove := TreeM.remove
  contains := Tree.contains
  within := Tree.within
  size := Tree.size
  clear := Tree.clear

end RTree
