
namespace RTree

inductive PartitionRule where
  | quadratic
  /-- No geometric rule applied: the entries are halved in their order. -/
  | degenerate
  /-- Least margin. -/
  | margin
  /-- Least overlap along the axis that the entries' histories share. -/
  | minOverlap
  deriving DecidableEq

structure Partition (α : Type) where
  first : List Nat
  second : List Nat
  kind : PartitionRule
  /-- The axis the entries were cut along, if they were. -/
  axis : Option Nat := none
  /-- The overlap ratio by which the partition was accepted, if that was asked. -/
  overlapRatio : Option α := none

namespace Partition

variable {α : Type}

def entries (p : Partition α) : List Nat := p.first ++ p.second

/-- Whether each place below `count` is in exactly one group and both groups have the minimum.
Halves made for want of a geometric split need only hold something. -/
def isValid (p : Partition α) (count minimum : Nat) : Bool :=
  let least := if p.kind = .degenerate then 1 else minimum
  p.entries.all (· < count) && decide p.entries.Nodup && p.entries.length == count &&
    decide (least ≤ p.first.length) && decide (least ≤ p.second.length)

def halves (count : Nat) : Partition α where
  first := List.range (count / 2)
  second := List.range' (count / 2) (count - count / 2)
  kind := .degenerate

theorem entries_halves (count : Nat) : (halves count : Partition α).entries = List.range count := by
  have h : count = count / 2 + (count - count / 2) := by omega
  simp only [entries, halves, List.range_eq_range']
  conv => rhs; rw [h, ← List.range'_append_1, Nat.zero_add]

end Partition

end RTree
