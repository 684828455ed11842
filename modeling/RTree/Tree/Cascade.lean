import RTree.Tree.Overflow

namespace RTree

variable {α : Type}

/-- A way of inserting a stored point: takes the flags and answers those left. -/
abbrev Reinsertion (α : Type) := PointId → LevelFlags → TreeM α LevelFlags

def Reinsertion.all (again : Reinsertion α) (points : List PointId) (flags : LevelFlags) :
    TreeM α LevelFlags := points.foldlM (fun flags id => again id flags) flags

namespace TreeM

variable [Scalar α]

/-- Takes a node and all below it out of use; answers the points it held. -/
def detachFrom : Nat → NodeId → TreeM α (List PointId)
  | 0, _ => throw .endless
  | limit + 1, id => do
    let n ← getNode id
    retire id
    let below ← n.children.reverse.mapM (detachFrom limit)
    return n.points ++ below.flatten

/-- Takes a node off its parent's list, and out of use with all below it. -/
def dissolve (id parent : NodeId) : TreeM α (List PointId) := do
  let place ← placeAmong id parent
  modifyNode parent fun n => { n with children := n.children.eraseIdx place }
  let limit := (← get).walkLimit
  detachFrom limit id

/-- From a node up to the root, dissolves nodes with too few entries and tightens the others;
answers the points of the dissolved ones. -/
def condenseFrom : Nat → NodeId → TreeM α (List PointId)
  | 0, _ => throw .endless
  | limit + 1, id => do
    let n ← getNode id
    match n.parent with
    | none => return []
    | some parent =>
      let minimum := (← get).minimumFill n
      if n.entryCount < minimum then
        let orphans ← dissolve id parent
        return orphans ++ (← condenseFrom limit parent)
      else
        tighten id
        condenseFrom limit parent

/-- A root that has lost all children becomes a leaf again; in any case its bound is tightened. -/
def settleRoot : TreeM α Unit := do
  let root := (← get).root
  let n ← getNode root
  if !n.leaf && n.children.isEmpty then
    let capacity := (← get).config.maxChildren
    modifyNode root fun n => { n with leaf := true, capacity }
  tighten root

/-- Brings the tree into shape after a leaf has lost a point. -/
def condenseTree (again : Reinsertion α) (leaf : NodeId) (flags : LevelFlags) :
    TreeM α LevelFlags := do
  let limit := (← get).walkLimit
  let orphans ← condenseFrom (2 * limit) leaf
  settleRoot
  again.all orphans flags

/-- The leaf that lists a stored point, if a search reaches it. -/
def leafOf? (id : PointId) : TreeM α (Option NodeId) :=
  query fun t =>
    match t.store[id.index]? with
    | none => return none
    | some p => return (← t.search id p.coords).bind List.getLast?

/-- Takes a point out of its leaf; answers whether it was found. The point stays in the store. -/
def takeOut (again : Reinsertion α) (id : PointId) (flags : LevelFlags) :
    TreeM α (Bool × LevelFlags) := do
  match ← leafOf? id with
  | none => return (false, flags)
  | some leaf =>
    modifyNode leaf fun n => { n with points := n.points.filter (· != id) }
    return (true, ← condenseTree again leaf flags)

/-- The points of a leaf, the farthest from its center first; of equally far ones the earlier comes
first. -/
def farthestFirst (leaf : NodeId) : TreeM α (List PointId) := do
  let n ← getNode leaf
  let placed ← query (·.placedPoints n)
  let metric := (← get).config.metric
  let center := n.bound.center
  let ranked := placed.map fun (id, p) => (metric.distance center p, id)
  return (stableSort (fun a b => decide (b.1 < a.1)) ranked).map Prod.snd

/-- Takes points out in turn, all of which must be found. -/
def deleteAll (again : Reinsertion α) (points : List PointId) (flags : LevelFlags) :
    TreeM α LevelFlags :=
  points.foldlM (fun flags id => do
    let (found, flags) ← takeOut again id flags
    if found then return flags else throw (.pointNotFound id)) flags

/-- Takes the `count` points farthest from the center out of a leaf and inserts them again, the
closest first. -/
def reinsertFarthest (again : Reinsertion α) (leaf : NodeId) (count : Nat) (flags : LevelFlags) :
    TreeM α LevelFlags := do
  let removed := (← farthestFirst leaf).take count
  let flags ← deleteAll again removed flags
  let flags ← again.all removed.reverse flags
  modifyStats fun s =>
    { s with
      forcedReinsertions := s.forcedReinsertions + 1
      reinsertedPoints := s.reinsertedPoints + removed.length }
  return flags

/-- Goes down from a node to the leaf for a point; the bounds on the way take the point in. -/
def descendFrom (rule : DescentRule) (p : List α) : Nat → NodeId → TreeM α NodeId
  | 0, _ => throw .endless
  | limit + 1, id => do
    modifyNode id fun n => { n with bound := n.bound.insert p }
    let n ← getNode id
    if n.leaf then return id
    else if n.children.isEmpty then throw (.childless id)
    else
      let place ← query (·.childFor rule n p)
      match n.children[place]? with
      | none => throw (.childless id)
      | some child => descendFrom rule p limit child

def resolveLeaf (s : Strategy α) (again : Reinsertion α) (leaf : NodeId) (flags : LevelFlags) :
    TreeM α LevelFlags := do
  let leaf ← if leaf = (← get).root then pushDownRoot else pure leaf
  let (decision, flags) ← query (s.onLeaf · leaf flags)
  match decision with
  | .reinsert count => reinsertFarthest again leaf count flags
  | .partition p =>
    modifyStats fun s => { s with leafSplits := s.leafSplits + 1 }
    let parent ← splitNode s.keepsHistory leaf p
    resolveDirectory s parent
    return flags

/-- Puts a stored point into the leaf it goes down to, and resolves the overflow. -/
def placePoint (s : Strategy α) (again : Reinsertion α) : Reinsertion α := fun id flags => do
  let p ← getCoords id
  let limit := (← get).walkLimit
  let root := (← get).root
  let leaf ← descendFrom s.descent p limit root
  modifyNode leaf (·.addPoint id p)
  let most := (← get).config.maxLeafSize
  if most < (← getNode leaf).points.length then resolveLeaf s again leaf flags
  else return flags

/-- Inserts a stored point, with at most `rounds` insertions within one another. -/
def insertWithin (s : Strategy α) : Nat → Reinsertion α
  | 0 => fun _ _ => throw .endless
  | rounds + 1 => placePoint s (insertWithin s rounds)

/-- Inserts a stored point with as many rounds as the tree can need: all insertions of one operation
share one set of level flags, and each round takes up one more level. -/
def insertStored (s : Strategy α) : Reinsertion α := fun id flags => do
  let rounds := (← get).walkLimit + 1
  insertWithin s rounds id flags

/-- Takes a stored point out of its leaf and inserts again what falls out with it. -/
def deleteStored (s : Strategy α) (id : PointId) (flags : LevelFlags) :
    TreeM α (Bool × LevelFlags) := do
  let rounds := (← get).walkLimit + 1
  takeOut (insertWithin s rounds) id flags

/-- While the root has a single child, the child's contents move into the root. -/
def collapseRoot : Nat → TreeM α Unit
  | 0 => throw .endless
  | limit + 1 => do
    let root := (← get).root
    let n ← getNode root
    match n.leaf, n.children with
    | false, [only] =>
      let child ← getNode only
      retire only
      adopt root child.children
      modifyNode root fun n =>
        { n with
          leaf := child.leaf, points := child.points, children := child.children,
          bound := child.bound, capacity := child.capacity, history := child.history }
      collapseRoot limit
    | _, _ => return ()

end TreeM

end RTree
