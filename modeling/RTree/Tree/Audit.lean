import RTree.Tree.Query

namespace RTree

inductive Defect (α : Type) where
  | rootHasParent (root : NodeId)
  | reachedAgain (node : NodeId)
  | retiredInUse (node : NodeId)
  | overfull (node : NodeId) (entries capacity : Nat)
  | underfull (node : NodeId) (entries minimum : Nat)
  | childlessRoot (node : NodeId)
  /-- A directory of unusual capacity in a tree without supernodes. -/
  | foreignCapacity (node : NodeId) (capacity : Nat)
  | leafWithChildren (node : NodeId)
  | unevenLeaf (node : NodeId) (depth expected : Nat)
  | removedPoint (point : PointId) (leaf : NodeId)
  | storedAgain (point : PointId)
  | directoryWithPoints (node : NodeId)
  | strayChild (child parent : NodeId)
  | looseBound (node : NodeId) (bound expected : Rectangle α)
  | missingPoints (count : Nat)
  | wrongSize (reachable size : Nat)

/-- What a walk through the tree found, defects in the order found. -/
structure Findings (α : Type) where
  nodesChecked : Nat := 0
  pointsReachable : Nat := 0
  underfull : List NodeId := []
  overfull : List NodeId := []
  defects : List (Defect α) := []

def Findings.isValid {α : Type} (r : Findings α) : Bool := r.defects.isEmpty

/-- The state of a walk: the report so far and what has been met. -/
structure Audit (α : Type) where
  report : Findings α := {}
  nodes : List NodeId := []
  points : List PointId := []
  /-- The depth of the first leaf. -/
  leafDepth : Option Nat := none

variable {α : Type}

namespace Audit

def add (a : Audit α) (defects : List (Defect α)) : Audit α :=
  { a with report := { a.report with defects := a.report.defects ++ defects } }

def flag (a : Audit α) (broken : Bool) (defect : Defect α) : Audit α :=
  if broken then a.add [defect] else a

def checkDepth (a : Audit α) (leaf : NodeId) (depth : Nat) : Audit α :=
  match a.leafDepth with
  | none => { a with leafDepth := some depth }
  | some expected => a.flag (depth != expected) (.unevenLeaf leaf depth expected)

/-- Compares the number of entries with the limits, of which the root has only the upper one. -/
def checkFill (a : Audit α) (isRoot : Bool) (id : NodeId) (entries minimum maximum : Nat) :
    Audit α :=
  let a :=
    if maximum < entries then
      { a with report := { a.report with overfull := a.report.overfull ++ [id] } }.add
        [.overfull id entries maximum]
    else a
  if !isRoot && decide (entries < minimum) then
    { a with report := { a.report with underfull := a.report.underfull ++ [id] } }.add
      [.underfull id entries minimum]
  else a

/-- A point listed in a leaf must be live and not be listed before. -/
def checkPoint (t : Tree α) (leaf : NodeId) (a : Audit α) (point : PointId) : Audit α :=
  let a := { a with report := { a.report with pointsReachable := a.report.pointsReachable + 1 } }
  if !t.contains point then a.add [.removedPoint point leaf]
  else if a.points.contains point then a.add [.storedAgain point]
  else { a with points := point :: a.points }

def checkChild (t : Tree α) (parent : NodeId) (a : Audit α) (child : NodeId) :
    Except (Failure α) (Audit α) :=
  return a.flag ((← t.node child).parent != some parent) (.strayChild child parent)

def checkNode [Scalar α] (t : Tree α) (id : NodeId) (n : Node α) (depth : Nat) (a : Audit α) :
    Except (Failure α) (Audit α) := do
  let isRoot := decide (id = t.root)
  let c := t.config
  let a := a.flag n.retired (.retiredInUse id)
  let a :=
    if n.leaf then a.checkFill isRoot id n.entryCount c.minLeafSize c.maxLeafSize
    else a.checkFill isRoot id n.entryCount c.minChildren n.capacity
  let a := a.flag (isRoot && !n.leaf && n.children.isEmpty) (.childlessRoot id)
  let a := a.flag (c.variant != .xTree && !n.leaf && n.capacity != c.maxChildren)
    (.foreignCapacity id n.capacity)
  let a ←
    if n.leaf then
      let a := (a.flag (!n.children.isEmpty) (.leafWithChildren id)).checkDepth id depth
      pure (n.points.foldl (checkPoint t id) a)
    else
      let a := a.flag (!n.points.isEmpty) (.directoryWithPoints id)
      n.children.foldlM (checkChild t id) a
  let tight ← t.tightBound n
  return a.flag (!(tight == n.bound)) (.looseBound id n.bound tight)

/-- Checks a node and all below it, the last child first. A node met before is not entered again. -/
def visit [Scalar α] (t : Tree α) : Nat → NodeId → Nat → Audit α → Except (Failure α) (Audit α)
  | 0, _, _, _ => .error .endless
  | limit + 1, id, depth, a => do
    let a := { a with report := { a.report with nodesChecked := a.report.nodesChecked + 1 } }
    if a.nodes.contains id then return a.add [.reachedAgain id]
    else
      let n ← t.node id
      let a ← checkNode t id n depth { a with nodes := id :: a.nodes }
      if n.leaf then return a
      else n.children.reverse.foldlM (fun a child => visit t limit child (depth + 1) a) a

end Audit

def Tree.audit [Scalar α] (t : Tree α) : Except (Failure α) (Findings α) := do
  let root ← t.node t.root
  let a := ({} : Audit α).flag root.parent.isSome (.rootHasParent t.root)
  let a ← a.visit t t.walkLimit t.root 0
  let missing := t.livePoints.countP fun p => !a.points.contains p
  let a := a.flag (missing != 0) (.missingPoints missing)
  return (a.flag (a.points.length != t.size) (.wrongSize a.points.length t.size)).report

end RTree
