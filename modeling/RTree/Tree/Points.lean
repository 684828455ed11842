import RTree.Tree.Cascade

namespace RTree

variable {α : Type} [Scalar α]

namespace Tree

/-- Refuses a point of another dimension, then one with a coordinate that is not finite. -/
def acceptPoint (t : Tree α) (p : List α) : Except (Failure α) Unit :=
  if p.length ≠ t.dim then .error (.dimensionMismatch t.dim p.length)
  else
    match p.find? (!Scalar.isFinite ·) with
    | some v => .error (.notFinite v)
    | none => .ok ()

/-- The tree without points. All numbers given so far stay given, and the counters go on. -/
def clear (t : Tree α) : Tree α :=
  { ofConfig t.config with
    store := t.store.map fun p => { p with live := false }
    stats := t.stats }

end Tree

namespace TreeM

def insertBy (s : Strategy α) (p : List α) : TreeM α PointId := do
  query (·.acceptPoint p)
  let id ← storePoint p false
  let _ ← insertStored s id .fresh
  modify fun t => { t.setLive id true with size := t.size + 1 }
  return id

def removeBy (s : Strategy α) (id : PointId) : TreeM α Bool := do
  if (← get).contains id then
    let (found, _) ← deleteStored s id .fresh
    if found then
      modify fun t => { t.setLive id false with size := t.size - 1 }
      let limit := (← get).walkLimit
      collapseRoot limit
      return true
    else throw (.unreachable id)
  else return false

def insert (p : List α) : TreeM α PointId := do
  let s := (← get).strategy
  insertBy s p

def remove (id : PointId) : TreeM α Bool := do
  let s := (← get).strategy
  removeBy s id

def clear : TreeM α Unit := modify Tree.clear

end TreeM

def Tree.ofList (c : Config α) (points : List (List α)) : Except (Failure α) (Tree α) :=
  match Tree.new c with
  | .error e => .error e
  | .ok t =>
    match (points.forM fun p => discard (TreeM.insert p)).run t with
    | .ok _ t => .ok t
    | .error e _ => .error e

end RTree
