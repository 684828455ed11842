import RTree.Tree.Basic

/-!
Steps that build a tree node by node. Each does what its name says and nothing else: no overflow is
resolved and no link is mended.
-/

namespace RTree

variable {α : Type}

def SplitHistory.ofAxes (dimension : Nat) (axes : List Nat) : SplitHistory :=
  axes.foldl SplitHistory.extend (.blank dimension)

namespace TreeM

def markPoint (id : PointId) (live : Bool) : TreeM α Unit := do
  let _ ← getCoords id
  modify (·.setLive id live)

variable [Scalar α]

/-- Lists `child` under `parent`, whose bound grows; the child's own link stays as it is. -/
def link (parent child : NodeId) : TreeM α Unit := do
  let bound := (← getNode child).bound
  modifyNode parent (·.addChild child bound)

def pushPoint (id : NodeId) (p : List α) : TreeM α PointId := do
  let point ← storePoint p true
  modifyNode id (·.addPoint point p)
  return point

/-- A new directory that names its parent and is not listed there. -/
def placeDirectory (parent : NodeId) : TreeM α NodeId := do
  let capacity := (← get).config.maxChildren
  allocate false (some parent) capacity

/-- A new leaf under `parent` with new live points, split along `axes` before. -/
def placeLeaf (parent : NodeId) (points : List (List α)) (axes : List Nat) : TreeM α NodeId := do
  let capacity := (← get).config.maxChildren
  let leaf ← allocate true (some parent) capacity
  points.forM fun p => discard (pushPoint leaf p)
  let dimension := (← get).dim
  modifyNode leaf fun n => { n with history := .ofAxes dimension axes }
  link parent leaf
  return leaf

def configure (c : Config α) : TreeM α Unit := do
  match c.validate with
  | .error cause => throw (.configuration cause)
  | .ok () => modify fun t => { t with config := c }

end TreeM

end RTree
