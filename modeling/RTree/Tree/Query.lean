import RTree.Sorting
import RTree.Tree.Basic

namespace RTree

namespace Tree

variable {α : Type}

/-- One step more than any walk along links that meets each node at most once. A search that takes
it goes round in a circle and fails. -/
def walkLimit (t : Tree α) : Nat := t.arena.size + 1

/-- The level of a node by the first child, its first child and so on; `limit` nodes may be met. -/
def levelFrom (t : Tree α) : Nat → NodeId → Except (Failure α) Nat
  | 0, _ => .error .endless
  | limit + 1, id => do
    let n ← t.node id
    match n.children with
    | [] => return 0
    | child :: _ => return (← t.levelFrom limit child) + 1

/-- The level of a node counted from the leaves, which have level 0. -/
def level (t : Tree α) (id : NodeId) : Except (Failure α) Nat := t.levelFrom t.walkLimit id

def height (t : Tree α) : Except (Failure α) Nat := t.level t.root

/-- A node and all below it, each before its children. -/
def nodesFrom (t : Tree α) : Nat → NodeId → Except (Failure α) (List NodeId)
  | 0, _ => .error .endless
  | limit + 1, id => do
    let n ← t.node id
    let below ← n.children.mapM (t.nodesFrom limit)
    return id :: below.flatten

def nodes (t : Tree α) : Except (Failure α) (List NodeId) := t.nodesFrom t.walkLimit t.root

def placedPoints (t : Tree α) (n : Node α) : Except (Failure α) (List (PointId × List α)) :=
  n.points.mapM fun id => return (id, ← t.coords id)

def childBounds (t : Tree α) (n : Node α) : Except (Failure α) (List (Rectangle α)) :=
  n.children.mapM fun id => return (← t.node id).bound

/-- The rectangles of a node's entries: one per point of a leaf, the bounds of the children of a
directory. -/
def entryRects (t : Tree α) (n : Node α) : Except (Failure α) (List (Rectangle α)) :=
  if n.leaf then return (← t.placedPoints n).map fun (_, p) => .ofPoint p
  else t.childBounds n

variable [Scalar α]

def tightBound (t : Tree α) (n : Node α) : Except (Failure α) (Rectangle α) :=
  return (← t.entryRects n).foldl Rectangle.union (.empty t.dim)

/-- The way from a node down to a leaf that lists the point, through bounds that hold `p`. Children
are tried in order. -/
def searchFrom (t : Tree α) (point : PointId) (p : List α) :
    Nat → NodeId → Except (Failure α) (Option (List NodeId))
  | 0, _ => .error .endless
  | limit + 1, id => do
    let n ← t.node id
    if !n.bound.contains p then return none
    else if n.leaf then return if n.points.contains point then some [id] else none
    else
      let below ← n.children.findSomeM? (t.searchFrom point p limit)
      return below.map (id :: ·)

/-- The way from the root to a leaf that lists the stored point, live or not. -/
def search (t : Tree α) (point : PointId) (p : List α) :
    Except (Failure α) (Option (List NodeId)) :=
  t.searchFrom point p t.walkLimit t.root

def path? (t : Tree α) (point : PointId) : Except (Failure α) (Option (List NodeId)) :=
  match t.point? point with
  | none => return none
  | some p => t.search point p

def leaf? (t : Tree α) (point : PointId) : Except (Failure α) (Option NodeId) :=
  return (← t.path? point).bind List.getLast?

/-- The points below a node that lie in the rectangle, found through bounds that meet it. -/
def collectFrom (t : Tree α) (q : Rectangle α) :
    Nat → NodeId → Except (Failure α) (List PointId)
  | 0, _ => .error .endless
  | limit + 1, id => do
    let n ← t.node id
    if !n.bound.intersects q then return []
    else if n.leaf then
      return ((← t.placedPoints n).filter fun (_, p) => q.contains p).map Prod.fst
    else
      let below ← n.children.mapM (t.collectFrom q limit)
      return below.flatten

/-- The points in the rectangle, edges included, in the order of arrival. -/
def within (t : Tree α) (q : Rectangle α) : Except (Failure α) (List PointId) := do
  if q.dim ≠ t.dim then throw (.dimensionMismatch t.dim q.dim)
  let found ← t.collectFrom q t.walkLimit t.root
  return stableSort (fun a b => decide (a.index < b.index)) found

end Tree

end RTree
