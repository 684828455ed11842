
namespace RTree

/-- The place of a node in the arena. -/
structure NodeId where
  index : Nat
  deriving DecidableEq

/-- The place of a point in the point store, which is its number in the order of arrival. It is
never given twice. -/
structure PointId where
  index : Nat
  deriving DecidableEq

instance : ToString NodeId := ⟨fun id => "#" ++ toString id.index⟩

instance : ToString PointId := ⟨fun id => "p" ++ toString id.index⟩

end RTree
