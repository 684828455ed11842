import RTree.Rectangle
import RTree.Sorting
import RTree.Split.Partition

namespace RTree

variable {α : Type} [Scalar α]

namespace Rectangle

def distanceOfCenters (r s : Rectangle α) : α :=
  Scalar.sqrt (Scalar.sum (List.zipWith (fun x y => (x - y) * (x - y)) r.center s.center))

/-- The volume that the union has beyond those of the two. -/
def deadSpace (r s : Rectangle α) : α := (r.union s).volume - r.volume - s.volume

end Rectangle

/-- Two entries as seeds of the groups, with what speaks for them. -/
structure SeedPair (α : Type) where
  first : Nat
  second : Nat
  dead : α
  spread : α

/-- More dead space wins, and of equal dead space the larger distance. -/
def SeedPair.isBetter (p q : SeedPair α) : Bool :=
  decide (q.dead < p.dead) || (p.dead == q.dead && decide (q.spread < p.spread))

/-- All pairs of entries, each entry with the later ones in turn. -/
def seedPairs : List (Nat × Rectangle α) → List (SeedPair α)
  | [] => []
  | (i, r) :: later =>
    later.map (fun (j, s) => ⟨i, j, r.deadSpace s, r.distanceOfCenters s⟩) ++ seedPairs later

/-- The pair to start with: the first two entries when no pair has any score. -/
def bestSeeds (rects : List (Rectangle α)) : SeedPair α :=
  champion SeedPair.isBetter ⟨0, 1, Scalar.bottom, Scalar.bottom⟩
    (seedPairs (rects.zipIdx.map fun (r, i) => (i, r)))

structure Cluster (α : Type) where
  entries : List Nat
  bound : Rectangle α

def Cluster.add (g : Cluster α) (entry : Nat × Rectangle α) : Cluster α :=
  ⟨g.entries ++ [entry.1], g.bound.union entry.2⟩

/-- An entry that waits, by its place among the waiting, with how much it would enlarge each
group. -/
structure Preference (α : Type) where
  place : Nat
  growth : α × α
  difference : α

/-- The waiting entry whose two enlargements differ most; the first one when none differ. -/
def nextEntry (first second : Cluster α) (waiting : List (Nat × Rectangle α)) : Preference α :=
  champion (fun p q => decide (q.difference < p.difference))
    ⟨0, (Scalar.zero, Scalar.zero), Scalar.bottom⟩
    (waiting.zipIdx.map fun ((_, r), place) =>
      let growth := (first.bound.enlargement r, second.bound.enlargement r)
      ⟨place, growth, Scalar.abs (growth.1 - growth.2)⟩)

/-- The smaller enlargement decides, then the smaller volume, then the shorter group. -/
def goesFirst (first second : Cluster α) (growth : α × α) : Bool :=
  if growth.1 < growth.2 then true
  else if growth.2 < growth.1 then false
  else
    let v := first.bound.volume
    let w := second.bound.volume
    if v == w then decide (first.entries.length ≤ second.entries.length) else decide (v < w)

/-- Hands out the waiting entries, at most `fuel` of them one by one. -/
def distribute (minimum : Nat) :
    Nat → Cluster α → Cluster α → List (Nat × Rectangle α) → List Nat × List Nat
  | 0, first, second, _ => (first.entries, second.entries)
  | fuel + 1, first, second, waiting =>
    if waiting.isEmpty then (first.entries, second.entries)
    else if first.entries.length + waiting.length ≤ minimum then
      (first.entries ++ waiting.map Prod.fst, second.entries)
    else if second.entries.length + waiting.length ≤ minimum then
      (first.entries, second.entries ++ waiting.map Prod.fst)
    else
      let next := nextEntry first second waiting
      match waiting[next.place]? with
      | none => (first.entries, second.entries)
      | some entry =>
        let rest := waiting.eraseIdx next.place
        if goesFirst first second next.growth then
          distribute minimum fuel (first.add entry) second rest
        else distribute minimum fuel first (second.add entry) rest

/-- Divides the entries into two groups of at least `minimum`. Entries that all share one rectangle
waste no space in any pair and are halved. -/
def Partition.quadratic (rects : List (Rectangle α)) (minimum : Nat) : Partition α :=
  match rects with
  | [] | [_] => .halves rects.length
  | r :: _ :: _ =>
    if rects.all (· == r) then .halves rects.length
    else
      let seeds := bestSeeds rects
      let indexed := rects.zipIdx.map fun (r, i) => (i, r)
      let seed (i : Nat) : Cluster α := ⟨[i], rects.getD i r⟩
      let waiting := indexed.filter fun (i, _) => i != seeds.first && i != seeds.second
      let (first, second) :=
        distribute minimum waiting.length (seed seeds.first) (seed seeds.second) waiting
      { first, second, kind := .quadratic }

end RTree
