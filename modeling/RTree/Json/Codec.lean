import RTree.Json.Reader
import RTree.Tree.Basic

namespace RTree

class Storable (β : Type) where
  toJson : β → Json
  fromJson? : Json → Option β

def Storable.read? {β : Type} [Storable β] (text : String) : Option β :=
  (Json.parse? text).bind fromJson?

instance : Storable NodeId where
  toJson id := .integer id.index
  fromJson? v := v.nat?.map NodeId.mk

instance : Storable PointId where
  toJson id := .integer id.index
  fromJson? v := v.nat?.map PointId.mk

namespace Metric

def table : List (String × Metric) :=
  [("Manhattan", manhattan), ("Euclidean", euclidean), ("SquaredEuclidean", squaredEuclidean),
    ("Chebyshev", chebyshev)]

def name : Metric → String
  | manhattan => "Manhattan"
  | euclidean => "Euclidean"
  | squaredEuclidean => "SquaredEuclidean"
  | chebyshev => "Chebyshev"

instance : Storable Metric where
  toJson m := .text m.name
  fromJson? := Json.variant? table

end Metric

namespace Variant

def table : List (String × Variant) :=
  [("Default", rTree), ("RStar", rStar), ("XTree", xTree)]

def name : Variant → String
  | rTree => "Default"
  | rStar => "RStar"
  | xTree => "XTree"

instance : Storable Variant where
  toJson p := .text p.name
  fromJson? := Json.variant? table

end Variant

namespace Range

def ofJson? (v : Json) : Option (Range Float) := do
  match ← v.fields? ["lo", "hi"] with
  | [some lo, some hi] => return ⟨← lo.float?, ← hi.float?⟩
  | _ => none

instance : Storable (Range Float) where
  toJson r := .record [("lo", .ofFloat r.lo), ("hi", .ofFloat r.hi)]
  fromJson? := ofJson?

end Range

namespace Rectangle

def ofJson? (v : Json) : Option (Rectangle Float) := do
  match ← v.fields? ["ranges"] with
  | [some ranges] => return ⟨← ranges.list? Range.ofJson?⟩
  | _ => none

instance : Storable (Rectangle Float) where
  toJson r := .record [("ranges", .array (r.ranges.map Storable.toJson))]
  fromJson? := ofJson?

end Rectangle

namespace SplitHistory

def ofJson? (v : Json) : Option SplitHistory := do
  match ← v.fields? ["history", "last_dimension"] with
  | [some used, some last] => return ⟨← used.list? Json.bool?, ← last.nat?⟩
  | _ => none

instance : Storable SplitHistory where
  toJson h := .record
    [("history", .array (h.used.map Json.bool)), ("last_dimension", .integer h.last)]
  fromJson? := ofJson?

end SplitHistory

def Counters.toJson (s : Counters Float) : Json :=
  .record
    [("leaf_splits", .integer s.leafSplits),
      ("non_leaf_splits", .integer s.directorySplits),
      ("root_promotions", .integer s.rootPromotions),
      ("forced_reinsertions", .integer s.forcedReinsertions),
      ("reinserted_points", .integer s.reinsertedPoints),
      ("supernode_growths", .integer s.supernodeGrowths),
      ("root_absorptions", .integer s.rootAbsorptions),
      ("min_overlap_splits", .integer s.minOverlapSplits),
      ("degenerate_splits", .integer s.degenerateSplits),
      ("max_accepted_overlap_ratio", .ofFloat s.maxOverlapRatio)]

namespace Config

def fieldNames : List String :=
  ["dimension", "min_leaf_size", "max_leaf_size", "min_num_children", "max_num_children",
    "split_policy", "metric", "reinsert_fraction", "max_overlap_ratio"]

/-- A field read by `get?`, or the default when it is missing. -/
def field? {β : Type} (get? : Json → Option β) (default : β) : Option Json → Option β
  | some v => get? v
  | none => some default

def ofJson? (v : Json) : Option (Config Float) := do
  let d : Config Float := default
  match ← v.fields? fieldNames with
  | [dimension, minLeafSize, maxLeafSize, minChildren, maxChildren, variant, metric,
      reinsertFraction, maxOverlapRatio] =>
    return {
      dimension := ← field? Json.nat? d.dimension dimension
      minLeafSize := ← field? Json.nat? d.minLeafSize minLeafSize
      maxLeafSize := ← field? Json.nat? d.maxLeafSize maxLeafSize
      minChildren := ← field? Json.nat? d.minChildren minChildren
      maxChildren := ← field? Json.nat? d.maxChildren maxChildren
      variant := ← field? Storable.fromJson? d.variant variant
      metric := ← field? Storable.fromJson? d.metric metric
      reinsertFraction := ← field? Json.float? d.reinsertFraction reinsertFraction
      maxOverlapRatio := ← field? Json.float? d.maxOverlapRatio maxOverlapRatio }
  | _ => none

instance : Storable (Config Float) where
  toJson c := .record (fieldNames.zip
    [.integer c.dimension, .integer c.minLeafSize, .integer c.maxLeafSize,
      .integer c.minChildren, .integer c.maxChildren, Storable.toJson c.variant,
      Storable.toJson c.metric, .ofFloat c.reinsertFraction, .ofFloat c.maxOverlapRatio])
  fromJson? := ofJson?

end Config

end RTree
