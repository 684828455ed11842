import RTree.Sorting
import RTree.Tree.Query

namespace RTree

inductive DescentRule where
  /-- Growth in volume, then volume. -/
  | leastEnlargement
  /-- Above leaves the growth of the overlap with the other children, then as `leastEnlargement`. -/
  | leastOverlap
  deriving DecidableEq

variable {α : Type} [Scalar α]

/-- Three costs, the first deciding before the second and the second before the third. -/
structure DescentCost (α : Type) where
  first : α
  second : α
  third : α

namespace DescentCost

/-- A later cost decides only where the earlier ones are equal. -/
def below (c d : DescentCost α) : Bool :=
  if c.first == d.first then
    if c.second == d.second then decide (c.third < d.third) else decide (c.second < d.second)
  else decide (c.first < d.first)

def highest : DescentCost α := ⟨Scalar.top, Scalar.top, Scalar.top⟩

end DescentCost

namespace Rectangle

/-- How much more the rectangle would overlap the others after taking in the point. -/
def overlapGrowth (r : Rectangle α) (others : List (Rectangle α)) (p : List α) : α :=
  let grown := r.insert p
  Scalar.sum (others.map fun s => grown.overlap s - r.overlap s)

end Rectangle

namespace DescentRule

def cost (rule : DescentRule) (aboveLeaves : Bool) (bounds : List (Rectangle α)) (p : List α)
    (r : Rectangle α) (i : Nat) : DescentCost α :=
  if rule = leastOverlap ∧ aboveLeaves = true then
    ⟨r.overlapGrowth (bounds.eraseIdx i) p, r.pointEnlargement p, r.volume⟩
  else ⟨r.pointEnlargement p, r.volume, Scalar.zero⟩

/-- The place of the child with the least cost, the first of equals; the first child when no cost
is below the highest. -/
def choose (rule : DescentRule) (aboveLeaves : Bool) (bounds : List (Rectangle α)) (p : List α) :
    Nat :=
  (champion (fun a b => a.1.below b.1) (DescentCost.highest, 0)
    (bounds.zipIdx.map fun (r, i) => (rule.cost aboveLeaves bounds p r i, i))).2

end DescentRule

namespace Tree

/-- Whether a node's first child is a leaf. -/
def aboveLeaves (t : Tree α) (n : Node α) : Except (Failure α) Bool :=
  match n.children with
  | [] => return false
  | child :: _ => return (← t.node child).leaf

/-- The place of the child of a node that the point goes down to. -/
def childFor (t : Tree α) (rule : DescentRule) (n : Node α) (p : List α) :
    Except (Failure α) Nat := do
  let aboveLeaves ← t.aboveLeaves n
  let bounds ← t.childBounds n
  return rule.choose aboveLeaves bounds p

end Tree

end RTree
