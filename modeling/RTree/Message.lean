import RTree.Decimal.Shortest
import RTree.Tree.Audit

namespace RTree

def Rectangle.text (r : Rectangle Float) : String :=
  let edges := r.ranges.map fun g => "[" ++ Binary64.text g.lo ++ ", " ++ Binary64.text g.hi ++ "]"
  "BoundingRectangle(" ++ ", ".intercalate edges ++ ")"

def Fanout.text : Fanout → String
  | leafSize => "leaf size"
  | childCount => "number of children"

def ConfigError.message : ConfigError Float → String
  | dimensionZero => "dimension must be at least 1"
  | minimumZero what => "minimum " ++ what.text ++ " must be at least 1"
  | maximumBelowTwo what => "maximum " ++ what.text ++ " must be at least 2"
  | overflow what => "limits of the " ++ what.text ++ " overflow"
  | infeasible what min max =>
    "maximum " ++ what.text ++ " " ++ toString max ++ " is below 2 * " ++ toString min ++
      " - 1; some splits would be infeasible"
  | reinsertFraction found =>
    "reinsert fraction must be in (0, 1), got " ++ Binary64.text found
  | maxOverlapRatio found =>
    "max overlap ratio must be in (0, 1], got " ++ Binary64.text found

def Failure.violation (text : String) : String := "Invariant violation: " ++ text

def Failure.message : Failure Float → String
  | configuration cause => "Invalid configuration: " ++ cause.message
  | dimensionMismatch expected found =>
    "Dimension mismatch: expected " ++ toString expected ++ ", found " ++ toString found
  | notFinite v => "Invalid point: coordinate " ++ Binary64.text v ++ " is not finite"
  | pointNotFound point => "Point " ++ toString point ++ " not found"
  | parentless node => violation ("cannot split parentless node " ++ toString node)
  | notListed node parent =>
    violation (toString node ++ " is missing from the children of its parent " ++ toString parent)
  | parentlessSupernode node => violation ("supernode " ++ toString node ++ " has no parent")
  | childless node => violation ("internal node " ++ toString node ++ " has no children")
  | unreachable point =>
    violation ("live point " ++ toString point ++ " is not reachable from the root")
  | noSuchNode node => "no node " ++ toString node
  | noSuchPoint point => "no point " ++ toString point
  | noSuchAxis node => "an entry of " ++ toString node ++ " lacks an axis"
  | invalidPartition node => "the groups do not divide the entries of " ++ toString node
  | endless => "the links between nodes run in a circle"

def Defect.message : Defect Float → String
  | rootHasParent root => "root " ++ toString root ++ " has a parent"
  | reachedAgain node => toString node ++ " is reachable more than once"
  | retiredInUse node => "retired node " ++ toString node ++ " is reachable"
  | overfull node entries capacity =>
    toString node ++ " holds " ++ toString entries ++ " entries, capacity " ++ toString capacity
  | underfull node entries minimum =>
    toString node ++ " holds " ++ toString entries ++ " entries, minimum " ++ toString minimum
  | childlessRoot node => "internal root " ++ toString node ++ " has no children"
  | foreignCapacity node capacity =>
    toString node ++ " has capacity " ++ toString capacity ++
      " without being an X-tree supernode"
  | leafWithChildren node => "leaf " ++ toString node ++ " has children"
  | unevenLeaf node depth expected =>
    "leaf " ++ toString node ++ " at depth " ++ toString depth ++ ", expected " ++
      toString expected
  | removedPoint point leaf => toString point ++ " in leaf " ++ toString leaf ++ " was removed"
  | storedAgain point => toString point ++ " is stored more than once"
  | directoryWithPoints node => "internal node " ++ toString node ++ " holds points"
  | strayChild child parent =>
    toString child ++ " does not point back to parent " ++ toString parent
  | looseBound node bound expected =>
    "bound of " ++ toString node ++ " is " ++ bound.text ++ ", expected " ++ expected.text
  | missingPoints count => toString count ++ " live points are unreachable"
  | wrongSize reachable size =>
    toString reachable ++ " distinct points reachable, tree reports " ++ toString size

end RTree
