import RTree.Json.Codec
import RTree.Message
import RTree.PointIndex
import RTree.Proofs.Branching
import RTree.Proofs.Capacities
import RTree.Proofs.Champion
import RTree.Proofs.Clearing
import RTree.Proofs.Consultations
import RTree.Proofs.Counters
import RTree.Proofs.Descents
import RTree.Proofs.Diagnosis
import RTree.Proofs.Feasibility
import RTree.Proofs.Halves
import RTree.Proofs.Heights
import RTree.Proofs.Histories
import RTree.Proofs.Integrity
import RTree.Proofs.Ledger
import RTree.Proofs.Locality
import RTree.Proofs.Outcomes
import RTree.Proofs.Paths
import RTree.Proofs.Ratios
import RTree.Proofs.Rectangle.Distances
import RTree.Proofs.Rectangle.Growth
import RTree.Proofs.Rectangle.Hull
import RTree.Proofs.Rectangle.PointSets
import RTree.Proofs.Rectangle.Solid
import RTree.Proofs.Reinsertion
import RTree.Proofs.Replacement
import RTree.Proofs.RootGrowth
import RTree.Proofs.Runs
import RTree.Proofs.Scalar.Binary64
import RTree.Proofs.Scalar.Exact
import RTree.Proofs.Scalar.Lexicographic
import RTree.Proofs.Scalar.Monotone
import RTree.Proofs.Scalar.Sized
import RTree.Proofs.Slots
import RTree.Proofs.Sorting
import RTree.Proofs.Split.Distribution
import RTree.Proofs.Split.Feasible
import RTree.Proofs.Split.Optimum
import RTree.Proofs.Split.Recount
import RTree.Proofs.Split.Seeds
import RTree.Proofs.Split.SharedAxis
import RTree.Proofs.Split.Stages
import RTree.Proofs.Tally
import RTree.Proofs.Tree.Arena
import RTree.Proofs.Tree.Audit
import RTree.Proofs.Tree.Calls
import RTree.Proofs.Tree.Cascade
import RTree.Proofs.Tree.Collapse
import RTree.Proofs.Tree.Condense
import RTree.Proofs.Tree.Decisions
import RTree.Proofs.Tree.Descent
import RTree.Proofs.Tree.Dissolve
import RTree.Proofs.Tree.Growth
import RTree.Proofs.Tree.Insertion
import RTree.Proofs.Tree.Lifting
import RTree.Proofs.Tree.Midway
import RTree.Proofs.Tree.Moves
import RTree.Proofs.Tree.Overflow
import RTree.Proofs.Tree.Promotion
import RTree.Proofs.Tree.PromotionShape
import RTree.Proofs.Tree.Service
import RTree.Proofs.Tree.Shape
import RTree.Proofs.Tree.SplitShape
import RTree.Proofs.Tree.Splits
import RTree.Proofs.Tree.Steps
import RTree.Proofs.Tree.Trail
import RTree.Proofs.Tree.Within
import RTree.Proofs.Variants
import RTree.Rectangle.Distance
import RTree.Tree.Assembly
