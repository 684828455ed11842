import RTree.Split.Overlap
import RTree.Split.Quadratic
import RTree.Tree.ChooseSubtree

namespace RTree

/-- The levels whose points have been reinserted once during the current operation. Levels count
from the leaves, so they stay put when the root grows. -/
structure LevelFlags where
  used : List Nat
  deriving DecidableEq

namespace LevelFlags

def fresh : LevelFlags := ⟨[]⟩

/-- Whether the level may still reinsert, and the flags after it did. -/
def spend (f : LevelFlags) (level : Nat) : Bool × LevelFlags :=
  if f.used.contains level then (false, f) else (true, ⟨level :: f.used⟩)

/-- The answers for several levels in turn, and the flags after them. -/
def spendAll (f : LevelFlags) : List Nat → List Bool × LevelFlags
  | [] => ([], f)
  | level :: levels =>
    let (answer, f) := f.spend level
    let (answers, f) := f.spendAll levels
    (answer :: answers, f)

@[simp] theorem mem_used_spend (f : LevelFlags) (level other : Nat) :
    other ∈ (f.spend level).2.used ↔ other = level ∨ other ∈ f.used := by
  unfold spend
  split
  · rename_i h
    exact ⟨.inr, fun ho => ho.elim (fun he => he ▸ List.contains_iff_mem.mp h) id⟩
  · exact List.mem_cons

@[simp] theorem spend_fst (f : LevelFlags) (level : Nat) :
    (f.spend level).1 = !f.used.contains level := by
  unfold spend
  split <;> simp_all

end LevelFlags

variable {α : Type}

inductive LeafDecision (α : Type) where
  | partition (p : Partition α)
  /-- The points farthest from the center are taken out and inserted again. -/
  | reinsert (count : Nat)

/-- How points go down and how overfull nodes are treated. -/
structure Strategy (α : Type) where
  descent : DescentRule
  /-- For a leaf other than the root with one point too many. -/
  onLeaf : Tree α → NodeId → LevelFlags → Except (Failure α) (LeafDecision α × LevelFlags)
  /-- For a directory other than the root with more children than its capacity. -/
  onDirectory : Tree α → NodeId → Except (Failure α) (DirectoryDecision α)
  /-- Whether a split enters the histories of the two new nodes. -/
  keepsHistory : Bool

variable [Scalar α]

namespace Tree

/-- The rectangles of a node's entries, provided that they have the axes to be sorted along. -/
def sortableRects (t : Tree α) (id : NodeId) (edges : List Edge) :
    Except (Failure α) (List (Rectangle α)) := do
  let rects ← t.entryRects (← t.node id)
  if axesExist rects t.dim edges then return rects else throw (.noSuchAxis id)

def seedSplit (t : Tree α) (id : NodeId) (minimum : Nat) :
    Except (Failure α) (Partition α) :=
  return Partition.quadratic (← t.entryRects (← t.node id)) minimum

/-- The split of least margin. The two edges of a point are equal, so for a leaf the low edges
suffice. -/
def leafSplit (t : Tree α) (leaf : NodeId) : Except (Failure α) (Partition α) :=
  return Partition.leastMargin (← t.sortableRects leaf [.low]) t.dim [.low] t.config.minLeafSize

/-- The split of least margin of a directory, whose children differ in their high edges too. -/
def directorySplit (t : Tree α) (id : NodeId) : Except (Failure α) (Partition α) :=
  return Partition.leastMargin (← t.sortableRects id [.low, .high]) t.dim [.low, .high]
    t.config.minChildren

/-- How many points of the leaf to insert again: none when its level has had its turn, or when the
fraction of the capacity is less than one point. -/
def reinsertion? (t : Tree α) (leaf : NodeId) (flags : LevelFlags) :
    Except (Failure α) (Option Nat × LevelFlags) := do
  let (allowed, flags) := flags.spend (← t.level leaf)
  let count := t.config.reinsertionSize
  return (if allowed && count != 0 then some count else none, flags)

/-- A leaf is first relieved by reinsertion, later split by margin. -/
def reinsertOrSplit (t : Tree α) (leaf : NodeId) (flags : LevelFlags) :
    Except (Failure α) (LeafDecision α × LevelFlags) := do
  match ← t.reinsertion? leaf flags with
  | (some count, flags) => return (.reinsert count, flags)
  | (none, flags) => return (.partition (← t.leafSplit leaf), flags)

def overlapSplit (t : Tree α) (id : NodeId) : Except (Failure α) (DirectoryDecision α) := do
  let rects ← t.sortableRects id [.low, .high]
  let histories ← (← t.node id).children.mapM fun child => return (← t.node child).history
  return overlapDecision rects histories t.dim t.config.minChildren t.config.maxOverlapRatio

end Tree

namespace Strategy

def quadratic : Strategy α where
  descent := .leastEnlargement
  onLeaf := fun t leaf flags =>
    return (.partition (← t.seedSplit leaf t.config.minLeafSize), flags)
  onDirectory := fun t id => return .partition (← t.seedSplit id t.config.minChildren)
  keepsHistory := false

/-- Reinsertion, then splits of least margin. -/
def margin : Strategy α where
  descent := .leastOverlap
  onLeaf := Tree.reinsertOrSplit
  onDirectory := fun t id => return .partition (← t.directorySplit id)
  keepsHistory := false

/-- As `margin` for leaves; directories are split by overlap or become supernodes. -/
def overlap : Strategy α where
  descent := .leastOverlap
  onLeaf := Tree.reinsertOrSplit
  onDirectory := Tree.overlapSplit
  keepsHistory := true

end Strategy

def Variant.strategy : Variant → Strategy α
  | rTree => .quadratic
  | rStar => .margin
  | xTree => .overlap

def Tree.strategy (t : Tree α) : Strategy α := t.config.variant.strategy

end RTree
