import RTree.Failure
import RTree.Rectangle
import RTree.Split.History

namespace RTree

variable {α : Type}

/-- A leaf holds points, a directory holds child nodes. -/
structure Node (α : Type) where
  leaf : Bool
  points : List PointId := []
  children : List NodeId := []
  bound : Rectangle α
  parent : Option NodeId
  /-- The most children a directory may have; doubled when it becomes a supernode. -/
  capacity : Nat
  history : SplitHistory
  retired : Bool := false

/-- What the overflow treatment has done since the tree was made. -/
structure Counters (α : Type) where
  leafSplits : Nat := 0
  directorySplits : Nat := 0
  rootPromotions : Nat := 0
  forcedReinsertions : Nat := 0
  reinsertedPoints : Nat := 0
  supernodeGrowths : Nat := 0
  rootAbsorptions : Nat := 0
  minOverlapSplits : Nat := 0
  degenerateSplits : Nat := 0
  /-- The largest overlap ratio of an accepted split. -/
  maxOverlapRatio : α

/-- A point with a flag that says whether it is in the tree; it keeps its place after removal. -/
structure StoredPoint (α : Type) where
  coords : List α
  live : Bool

structure Tree (α : Type) where
  config : Config α
  store : Array (StoredPoint α)
  arena : Array (Node α)
  /-- The slots to be used again, the next one first. -/
  free : List NodeId
  root : NodeId
  /-- The number of live points. -/
  size : Nat
  stats : Counters α

/-- A computation on a tree. A failure keeps the changes made before it. -/
abbrev TreeM (α : Type) := EStateM (Failure α) (Tree α)

namespace Node

def entryCount (n : Node α) : Nat := if n.leaf then n.points.length else n.children.length

variable [Scalar α]

def new (leaf : Bool) (dimension : Nat) (parent : Option NodeId) (capacity : Nat) : Node α where
  leaf
  bound := .empty dimension
  parent
  capacity
  history := .blank dimension

def addPoint (n : Node α) (id : PointId) (p : List α) : Node α :=
  { n with bound := n.bound.insert p, points := n.points ++ [id] }

/-- The node with one more child, whose bound is given. -/
def addChild (n : Node α) (id : NodeId) (bound : Rectangle α) : Node α :=
  { n with bound := n.bound.union bound, children := n.children ++ [id] }

/-- The node out of use. What kind of node it was, its capacity and its history stay. -/
def retire (n : Node α) : Node α :=
  { n with retired := true, points := [], children := [], parent := none, bound := n.bound.clear }

end Node

namespace Tree

def ofConfig [Scalar α] (c : Config α) : Tree α where
  config := c
  store := #[]
  arena := #[.new true c.dimension none c.maxChildren]
  free := []
  root := ⟨0⟩
  size := 0
  stats := { maxOverlapRatio := Scalar.zero }

def new [Scalar α] (c : Config α) : Except (Failure α) (Tree α) :=
  match c.validate with
  | .error cause => .error (.configuration cause)
  | .ok () => .ok (ofConfig c)

def dim (t : Tree α) : Nat := t.config.dimension

def isEmpty (t : Tree α) : Bool := t.size == 0

def node (t : Tree α) (id : NodeId) : Except (Failure α) (Node α) :=
  match t.arena[id.index]? with
  | some n => .ok n
  | none => .error (.noSuchNode id)

/-- The coordinates of a stored point, live or not. -/
def coords (t : Tree α) (id : PointId) : Except (Failure α) (List α) :=
  match t.store[id.index]? with
  | some p => .ok p.coords
  | none => .error (.noSuchPoint id)

def contains (t : Tree α) (id : PointId) : Bool :=
  (t.store[id.index]?.map StoredPoint.live).getD false

def point? (t : Tree α) (id : PointId) : Option (List α) :=
  (t.store[id.index]?.filter StoredPoint.live).map StoredPoint.coords

def livePoints (t : Tree α) : List PointId :=
  t.store.toList.zipIdx.filterMap fun (p, i) => if p.live then some ⟨i⟩ else none

/-- The tree with the node in one slot changed; a slot outside the arena changes nothing. -/
def updateNode (t : Tree α) (id : NodeId) (f : Node α → Node α) : Tree α :=
  { t with arena := t.arena.modify id.index f }

def updateStats (t : Tree α) (f : Counters α → Counters α) : Tree α :=
  { t with stats := f t.stats }

def setLive (t : Tree α) (id : PointId) (live : Bool) : Tree α :=
  { t with store := t.store.modify id.index fun p => { p with live } }

theorem node_eq_ok_iff {t : Tree α} {id : NodeId} {n : Node α} :
    t.node id = .ok n ↔ t.arena[id.index]? = some n := by
  unfold node
  cases t.arena[id.index]? <;> simp

/-- The names of nodes are the slots of the arena. -/
theorem exists_node_iff {t : Tree α} {id : NodeId} :
    (∃ n, t.node id = .ok n) ↔ id.index < t.arena.size := by
  simp only [node_eq_ok_iff, Array.getElem?_eq_some_iff]
  exact ⟨fun ⟨_, h, _⟩ => h, fun h => ⟨_, h, rfl⟩⟩

@[simp] theorem size_arena_updateNode (t : Tree α) (id : NodeId) (f : Node α → Node α) :
    (t.updateNode id f).arena.size = t.arena.size := by
  simp [updateNode]

/-- The points listed are those the tree contains. -/
theorem mem_livePoints {t : Tree α} {id : PointId} :
    id ∈ t.livePoints ↔ t.contains id = true := by
  simp only [livePoints, contains, List.mem_filterMap, List.mem_zipIdx_iff_getElem?]
  constructor
  · rintro ⟨⟨p, i⟩, hp, hi⟩
    by_cases hl : p.live
    · simp only [hl, if_true, Option.some.injEq] at hi
      subst hi
      have hq : t.store[i]? = some p := by simpa using hp
      simp [hq, hl]
    · simp [hl] at hi
  · intro h
    cases hp : t.store[id.index]? with
    | none => simp [hp] at h
    | some p =>
      have hl : p.live = true := by simpa [hp] using h
      exact ⟨(p, id.index), by simpa using hp, by simp [hl]⟩

/-- The points contained are those with coordinates to show. -/
theorem contains_eq_isSome (t : Tree α) (id : PointId) :
    t.contains id = (t.point? id).isSome := by
  unfold contains point?
  cases t.store[id.index]? with
  | none => rfl
  | some p => cases hl : p.live <;> simp [Option.filter, hl]

end Tree

namespace TreeM

def query {β : Type} (ask : Tree α → Except (Failure α) β) : TreeM α β := fun t =>
  match ask t with
  | .ok b => .ok b t
  | .error e => .error e t

def getNode (id : NodeId) : TreeM α (Node α) := query (·.node id)

def getCoords (id : PointId) : TreeM α (List α) := query (·.coords id)

/-- Changes the node in a slot, which must be there. -/
def modifyNode (id : NodeId) (f : Node α → Node α) : TreeM α Unit := do
  let _ ← getNode id
  modify (·.updateNode id f)

def modifyStats (f : Counters α → Counters α) : TreeM α Unit := modify (·.updateStats f)

variable [Scalar α]

/-- Puts a new node into the slot freed last, or into a new slot. -/
def allocate (leaf : Bool) (parent : Option NodeId) (capacity : Nat) : TreeM α NodeId := do
  let t ← get
  let fresh := Node.new leaf t.dim parent capacity
  match t.free with
  | id :: rest =>
    set { t with free := rest }
    modifyNode id fun _ => fresh
    return id
  | [] =>
    let id : NodeId := ⟨t.arena.size⟩
    set { t with arena := t.arena.push fresh }
    return id

def retire (id : NodeId) : TreeM α Unit := do
  modifyNode id Node.retire
  modify fun t => { t with free := id :: t.free }

def storePoint (p : List α) (live : Bool) : TreeM α PointId := do
  let t ← get
  let id : PointId := ⟨t.store.size⟩
  set { t with store := t.store.push ⟨p, live⟩, size := if live then t.size + 1 else t.size }
  return id

end TreeM

end RTree
