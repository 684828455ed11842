import RTree.Config
import RTree.Id

namespace RTree

/-- Why an operation on a tree fails. The first three kinds are about what the caller asked for; the
others only arise in a tree whose nodes contradict each other. -/
inductive Failure (α : Type) where
  | configuration (cause : ConfigError α)
  | dimensionMismatch (expected found : Nat)
  /-- A coordinate that is infinite or no number. -/
  | notFinite (coordinate : α)
  /-- A point listed in a leaf that no search reaches. -/
  | pointNotFound (point : PointId)
  /-- A node without a parent cannot be split. -/
  | parentless (node : NodeId)
  /-- A node that its parent does not list. -/
  | notListed (node parent : NodeId)
  /-- A node without a parent cannot become a supernode. -/
  | parentlessSupernode (node : NodeId)
  /-- A directory without children, where a point should go down. -/
  | childless (node : NodeId)
  /-- A live point that no search reaches. -/
  | unreachable (point : PointId)
  /-- A reference to a node that is not in the arena. -/
  | noSuchNode (node : NodeId)
  /-- A reference to a point that is not in the store. -/
  | noSuchPoint (point : PointId)
  /-- Entries that lack one of the tree's axes. -/
  | noSuchAxis (node : NodeId)
  /-- A division that does not put each entry into one of two filled groups. -/
  | invalidPartition (node : NodeId)
  /-- Links that lead round in a circle. -/
  | endless

/-- Whether the program stops there: the arithmetic overflows, or the tree's references are broken,
so that nothing can be said about its state. -/
def Failure.isFault {α : Type} : Failure α → Bool
  | configuration (.overflow _) => true
  | noSuchNode _ | noSuchPoint _ | noSuchAxis _ | invalidPartition _ | endless => true
  | _ => false

end RTree
