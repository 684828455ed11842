import RTree.Split.History
import RTree.Split.Margin

namespace RTree

variable {α : Type}

inductive DirectoryDecision (α : Type) where
  | partition (p : Partition α)
  /-- The directory keeps its children and doubles its capacity. -/
  | supernode

/-- The axes in the order in which they are asked: those after the median, then from 0 up to it. -/
def axesAfter (median dimension : Nat) : List Nat :=
  List.range' (median + 1) (dimension - (median + 1)) ++ List.range (median + 1)

/-- An axis along which every child has been split before; failing that, the one along which the
fewest have. The search begins after the median of the axes that the children were split along
last. -/
def sharedAxis (dimension : Nat) (histories : List SplitHistory) : Nat :=
  if histories.isEmpty || dimension == 0 then 0
  else
    let recent := stableSort (fun a b => decide (a < b)) (histories.map SplitHistory.last)
    let median := min (recent.getD (recent.length / 2) 0) (dimension - 1)
    let users (axis : Nat) : Nat := histories.countP (·.uses axis)
    match (axesAfter median dimension).find? (users · == histories.length) with
    | some axis => axis
    | none =>
      (champion? (fun a b => decide (users a < users b)) (axesAfter median dimension)).getD median

structure BestCut (α : Type) where
  score : SortScore α
  cut : Cut α

/-- The partition at the cut, if the overlap ratio stays below the limit. -/
def BestCut.accept? [Scalar α] (b : BestCut α) (kind : PartitionRule) (limit : α) :
    Option (Partition α) :=
  if b.cut.overlapRatio < limit then
    some { b.score.partitionAt b.cut kind with overlapRatio := some b.cut.overlapRatio }
  else none

structure Finalists (α : Type) where
  /-- On the score with the least sum of margins. -/
  margin : Option (BestCut α) := none
  /-- With the least overlap among the cuts along the chosen axis. -/
  overlap : Option (BestCut α) := none

variable [Scalar α]

/-- One more score, to be compared with the best so far on both counts. -/
def Finalists.add (chosenAxis : Nat) (f : Finalists α) (s : SortScore α) : Finalists α :=
  match s.best? with
  | none => f
  | some cut =>
    let challenger : BestCut α := ⟨s, cut⟩
    { margin := match f.margin with
        | some best =>
          if s.marginSum < best.score.marginSum then some challenger else f.margin
        | none => some challenger
      overlap :=
        if s.axis = chosenAxis then
          match f.overlap with
          | some best => if cut.isBetter best.cut then some challenger else f.overlap
          | none => some challenger
        else f.overlap }

/-- The treatment of an overfull directory by the overlap its split would leave. One pass over the
sorts finds both finalists. -/
def overlapDecision (rects : List (Rectangle α)) (histories : List SplitHistory) (dimension : Nat)
    (minimum : Nat) (limit : α) : DirectoryDecision α :=
  let chosenAxis := sharedAxis dimension histories
  let finalists := (sorts dimension [.low, .high]).foldl
    (fun (f : Finalists α) (edge, axis) => f.add chosenAxis (scoreSort rects axis edge minimum)) {}
  match finalists.margin.bind (·.accept? .margin limit) with
  | some p => .partition p
  | none =>
    match finalists.overlap.bind (·.accept? .minOverlap limit) with
    | some p => .partition p
    | none => .supernode

end RTree
