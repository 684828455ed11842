import RTree.Metric
import RTree.Scalar.Binary64

namespace RTree

/-- How an overfull node is treated. -/
inductive Variant where
  /-- Quadratic split. -/
  | rTree
  /-- Split by least margin, after one round of reinsertion. -/
  | rStar
  /-- As `rStar`, but a directory whose halves would overlap too much grows instead. -/
  | xTree
  deriving DecidableEq

instance : Inhabited Variant := ⟨.rTree⟩

def Variant.symbol : Variant → String
  | rTree => "R-tree"
  | rStar => "R*-tree"
  | xTree => "X-tree"

instance : ToString Variant := ⟨Variant.symbol⟩

structure Config (α : Type) where
  dimension : Nat
  /-- Fewest points of a leaf other than the root. -/
  minLeafSize : Nat
  maxLeafSize : Nat
  /-- Fewest children of a directory other than the root. -/
  minChildren : Nat
  maxChildren : Nat
  variant : Variant
  metric : Metric
  /-- The part of a full leaf that is taken out and inserted again before the leaf is split. -/
  reinsertFraction : α
  /-- The overlap ratio that a directory split of an X-tree stays below. -/
  maxOverlapRatio : α

inductive Fanout where
  | leafSize
  | childCount
  deriving DecidableEq

inductive ConfigError (α : Type) where
  | dimensionZero
  | minimumZero (what : Fanout)
  | maximumBelowTwo (what : Fanout)
  /-- Limits so large that comparing them overflows 64 bits. -/
  | overflow (what : Fanout)
  /-- One entry more than the maximum makes less than two groups of the minimum. -/
  | infeasible (what : Fanout) (min max : Nat)
  | reinsertFraction (found : α)
  | maxOverlapRatio (found : α)

variable {α : Type}

/-- A fanout is sound when its minimum is positive, its maximum at least two, and one entry more
than the maximum can be divided into two groups of the minimum. The limits are numbers of 64 bits:
where `max + 1` or `2 * min` is none, the comparison has no result. -/
def Fanout.check (what : Fanout) (min max : Nat) : Except (ConfigError α) Unit :=
  if min = 0 then .error (.minimumZero what)
  else if max < 2 then .error (.maximumBelowTwo what)
  else if UInt64.size ≤ max + 1 ∨ UInt64.size ≤ 2 * min then .error (.overflow what)
  else if max + 1 < 2 * min then .error (.infeasible what min max)
  else .ok ()

namespace Config

instance : Inhabited (Config Float) :=
  ⟨{ dimension := 2
     minLeafSize := 8
     maxLeafSize := 20
     minChildren := 2
     maxChildren := 5
     variant := default
     metric := default
     reinsertFraction := 0.3
     maxOverlapRatio := 0.2 }⟩

variable [Scalar α]

/-- How many points a forced reinsertion takes out of an overfull leaf. -/
def reinsertionSize (c : Config α) : Nat :=
  Scalar.wholePart (Scalar.ofNat c.maxLeafSize * c.reinsertFraction)

/-- Refuses a configuration for the first of its faults. -/
def validate (c : Config α) : Except (ConfigError α) Unit := do
  if c.dimension = 0 then throw .dimensionZero
  Fanout.leafSize.check c.minLeafSize c.maxLeafSize
  Fanout.childCount.check c.minChildren c.maxChildren
  unless Scalar.zero < c.reinsertFraction && c.reinsertFraction < Scalar.one do
    throw (.reinsertFraction c.reinsertFraction)
  unless Scalar.zero < c.maxOverlapRatio && c.maxOverlapRatio ≤ Scalar.one do
    throw (.maxOverlapRatio c.maxOverlapRatio)

end Config

end RTree
