import RTree.Tree.Strategy

namespace RTree

variable {α : Type}

def Tree.minimumFill (t : Tree α) (n : Node α) : Nat :=
  if n.leaf then t.config.minLeafSize else t.config.minChildren

/-- Whether a child of `parent` is the only child of the root. -/
def Tree.isOnlyChild (t : Tree α) (parent : NodeId) : Except (Failure α) Bool :=
  if parent = t.root then return (← t.node parent).children.length == 1 else return false

namespace TreeM

def adopt (parent : NodeId) (children : List NodeId) : TreeM α Unit :=
  children.forM fun child => modifyNode child fun n => { n with parent := some parent }

def placeAmong (id parent : NodeId) : TreeM α Nat := do
  match (← getNode parent).children.idxOf? id with
  | some place => return place
  | none => throw (.notListed id parent)

variable [Scalar α]

/-- Replaces a node's bound by the least rectangle around its entries. -/
def tighten (id : NodeId) : TreeM α Unit := do
  let n ← getNode id
  let bound ← query (·.tightBound n)
  modifyNode id fun n => { n with bound }

/-- Moves the root's contents into a new child, the only one of the root afterwards. -/
def pushDownRoot : TreeM α NodeId := do
  let root := (← get).root
  let old ← getNode root
  let copy ← allocate old.leaf (some root) old.capacity
  let old ← getNode root
  let capacity := (← get).config.maxChildren
  modifyNode root fun n => { n with leaf := false, points := [], children := [copy], capacity }
  adopt copy old.children
  modifyNode copy fun n =>
    { n with
      points := old.points, children := old.children, bound := old.bound, history := old.history }
  modifyStats fun s => { s with rootPromotions := s.rootPromotions + 1 }
  return copy

def moveEntry (old : Node α) (target : NodeId) (entry : Nat) : TreeM α Unit := do
  if old.leaf then
    match old.points[entry]? with
    | none => throw (.invalidPartition target)
    | some id =>
      let p ← getCoords id
      modifyNode target (·.addPoint id p)
  else
    match old.children[entry]? with
    | none => throw (.invalidPartition target)
    | some child =>
      let bound := (← getNode child).bound
      modifyNode target (·.addChild child bound)
      modifyNode child fun n => { n with parent := some target }

/-- Fills a new node with a group of the old node's entries. -/
def fillNode (old : Node α) (target : NodeId) (group : List Nat) (history : SplitHistory) :
    TreeM α Unit := do
  group.forM (moveEntry old target)
  modifyNode target fun n => { n with history }

def recordPartition (p : Partition α) : TreeM α Unit := do
  match p.kind with
  | .degenerate => modifyStats fun s => { s with degenerateSplits := s.degenerateSplits + 1 }
  | .minOverlap => modifyStats fun s => { s with minOverlapSplits := s.minOverlapSplits + 1 }
  | .quadratic | .margin => pure ()
  match p.overlapRatio with
  | some ratio =>
    modifyStats fun s => { s with maxOverlapRatio := Scalar.max s.maxOverlapRatio ratio }
  | none => pure ()

/-- Puts two new nodes with the groups of the partition in the place of a node: the first where the
node was listed, the second after all siblings. Answers the parent. -/
def splitNode (keepsHistory : Bool) (id : NodeId) (p : Partition α) : TreeM α NodeId := do
  let old ← getNode id
  match old.parent with
  | none => throw (.parentless id)
  | some parent =>
    let minimum := (← get).minimumFill old
    unless p.isValid old.entryCount minimum do throw (.invalidPartition id)
    let history :=
      match keepsHistory, p.axis with
      | true, some axis => old.history.extend axis
      | _, _ => old.history
    modifyNode id fun n => { n with points := [], children := [] }
    let first ← allocate old.leaf (some parent) old.capacity
    let second ← allocate old.leaf (some parent) old.capacity
    fillNode old first p.first history
    fillNode old second p.second history
    let place ← placeAmong id parent
    modifyNode parent fun n => { n with children := n.children.set place first ++ [second] }
    retire id
    recordPartition p
    return parent

/-- The capacity doubled until it suffices, looked at `limit` times at most. -/
def doubledCapacity (needed : Nat) : Nat → Nat → Except (Failure α) Nat
  | 0, _ => .error .endless
  | limit + 1, capacity =>
    if capacity < needed then doubledCapacity needed limit (2 * capacity) else .ok capacity

/-- Gives the root the children of its only child, and room for them. -/
def absorbIntoRoot (id root : NodeId) : TreeM α Unit := do
  let old ← getNode id
  modifyNode id fun n => { n with children := [] }
  retire id
  let needed := old.children.length
  let own := (← getNode root).capacity
  let capacity ← query fun _ => doubledCapacity needed (needed + 1) (2 * own)
  modifyNode root fun n =>
    { n with capacity, children := old.children, history := old.history }
  adopt root old.children
  tighten root
  modifyStats fun s => { s with rootAbsorptions := s.rootAbsorptions + 1 }

/-- Doubles the capacity of a directory that is not to be split. The only child of the root gives
way to the root itself, so that no chain of single children arises. -/
def makeSupernode (id : NodeId) : TreeM α Unit := do
  match (← getNode id).parent with
  | none => throw (.parentlessSupernode id)
  | some parent =>
    if ← query (·.isOnlyChild parent) then absorbIntoRoot id parent
    else modifyNode id fun n => { n with capacity := 2 * n.capacity }
    modifyStats fun s => { s with supernodeGrowths := s.supernodeGrowths + 1 }

/-- Splits the node and its ancestors for as long as they have more children than their capacity;
at most `limit` nodes are looked at. -/
def resolveDirectories (s : Strategy α) : Nat → NodeId → TreeM α Unit
  | 0, _ => throw .endless
  | limit + 1, id => do
    let n ← getNode id
    if n.children.length ≤ n.capacity then return ()
    else
      let id ← if id = (← get).root then pushDownRoot else pure id
      match ← query (s.onDirectory · id) with
      | .supernode => makeSupernode id
      | .partition p =>
        modifyStats fun s => { s with directorySplits := s.directorySplits + 1 }
        let parent ← splitNode s.keepsHistory id p
        resolveDirectories s limit parent

def resolveDirectory (s : Strategy α) (id : NodeId) : TreeM α Unit := do
  let limit := (← get).walkLimit
  resolveDirectories s (limit + 1) id

end TreeM

end RTree
