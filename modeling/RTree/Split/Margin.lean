import RTree.Rectangle
import RTree.Sorting
import RTree.Split.Partition

namespace RTree

variable {α : Type}

inductive Edge where
  | low
  | high
  deriving DecidableEq

/-- What it costs to cut a sorted list after `position` entries. -/
structure Cut (α : Type) where
  position : Nat
  margin : α
  area : α
  overlap : α

structure SortScore (α : Type) where
  axis : Nat
  edge : Edge
  /-- The places of the entries in sorted order. -/
  order : List Nat
  marginSum : α
  cuts : List (Cut α)

variable [Scalar α]

def Edge.of (e : Edge) (r : Rectangle α) (axis : Nat) : α :=
  let range := r.ranges.getD axis Range.empty
  match e with
  | low => range.lo
  | high => range.hi

namespace Cut

/-- The cut between a first half of `position` entries and a second half, given by their bounds. -/
def between (position : Nat) (first second : Rectangle α) : Cut α where
  position
  margin := first.margin + second.margin
  area := first.volume + second.volume
  overlap := first.overlap second

/-- The overlap as a part of both volumes, zero when both halves are flat. -/
def overlapRatio (c : Cut α) : α := if Scalar.zero < c.area then c.overlap / c.area else Scalar.zero

/-- Less overlap wins, and of equal overlap the smaller volume. -/
def isBetter (c d : Cut α) : Bool :=
  decide (c.overlap < d.overlap) || (c.overlap == d.overlap && decide (c.area < d.area))

end Cut

/-- The union of `start` and the first rectangle, of `start` and the first two, and so on. -/
def runningUnions (start : Rectangle α) : List (Rectangle α) → List (Rectangle α)
  | [] => []
  | r :: rs => start.union r :: runningUnions (start.union r) rs

/-- All cuts of a sorted list of rectangles of one dimension that leave at least `least` entries on
each side. -/
def cutsOf (sorted : List (Rectangle α)) (least : Nat) : List (Cut α) :=
  let start := Rectangle.empty ((sorted.head?.map Rectangle.dim).getD 0)
  let heads := runningUnions start sorted
  let tails := (runningUnions start sorted.reverse).reverse
  ((heads.zip tails.tail).zipIdx 1).filterMap fun ((first, second), position) =>
    if least ≤ position && position ≤ sorted.length - least then
      some (.between position first second)
    else none

/-- Sorts the entries along `axis` and weighs every cut that leaves `minimum` entries on each side,
or as many as half of them when the minimum is more than that. -/
def scoreSort (rects : List (Rectangle α)) (axis : Nat) (edge : Edge) (minimum : Nat) :
    SortScore α :=
  let sorted := stableSort (fun a b => decide (edge.of a.1 axis < edge.of b.1 axis)) rects.zipIdx
  let cuts := cutsOf (sorted.map Prod.fst) (max 1 (min minimum (rects.length / 2)))
  { axis, edge, cuts
    order := sorted.map Prod.snd
    marginSum := Scalar.sum (cuts.map Cut.margin) }

/-- Whether the entries can be sorted along `axis`: one entry alone needs no sorting. -/
def axisExists (rects : List (Rectangle α)) (axis : Nat) : Bool :=
  decide (rects.length < 2) || rects.all fun r => decide (axis < r.dim)

def scoreSort? (rects : List (Rectangle α)) (axis : Nat) (edge : Edge) (minimum : Nat) :
    Option (SortScore α) :=
  if axisExists rects axis then some (scoreSort rects axis edge minimum) else none

namespace SortScore

/-- The place of the best cut among the cuts, the first of equals. -/
def bestIndex? (s : SortScore α) : Option Nat :=
  (champion? (fun a b => a.1.isBetter b.1) s.cuts.zipIdx).map Prod.snd

def best? (s : SortScore α) : Option (Cut α) := champion? Cut.isBetter s.cuts

def partitionAt (s : SortScore α) (c : Cut α) (kind : PartitionRule) : Partition α where
  first := s.order.take c.position
  second := s.order.drop c.position
  kind
  axis := some s.axis

end SortScore

/-- All sorts of entries by one of the edges, the edges outermost. -/
def sorts (dimension : Nat) (edges : List Edge) : List (Edge × Nat) :=
  edges.flatMap fun edge => (List.range dimension).map fun axis => (edge, axis)

/-- The score with the least sum of margins among those with a cut, the first of equals. -/
def leastMarginSort (rects : List (Rectangle α)) (dimension : Nat) (edges : List Edge)
    (minimum : Nat) : Option (SortScore α) :=
  let scores := (sorts dimension edges).map fun (edge, axis) => scoreSort rects axis edge minimum
  champion? (fun s t => decide (s.marginSum < t.marginSum))
    (scores.filter fun s => !s.cuts.isEmpty)

/-- Whether the entries can be sorted along all axes that a choice goes through. -/
def axesExist (rects : List (Rectangle α)) (dimension : Nat) (edges : List Edge) : Bool :=
  (sorts dimension edges).all fun (_, axis) => axisExists rects axis

/-- The best cut of the best axis; halves when there is nothing to cut. -/
def Partition.leastMargin (rects : List (Rectangle α)) (dimension : Nat) (edges : List Edge)
    (minimum : Nat) : Partition α :=
  match leastMarginSort rects dimension edges minimum with
  | none => .halves rects.length
  | some score =>
    match score.best? with
    | none => .halves rects.length
    | some cut => score.partitionAt cut .margin

end RTree
