import RTree.Proofs.Split.Finalists
import RTree.Proofs.Tree.Views
import RTree.Tree.Points

namespace RTree

variable {α : Type}

def Node.plain (n : Node α) : Node α := { n with history := ⟨[], 0⟩ }

def Counters.plain [Scalar α] (s : Counters α) : Counters α :=
  { s with maxOverlapRatio := Scalar.zero }

def Config.plain (c : Config α) : Config α := { c with variant := .rStar }

namespace Tree

variable [Scalar α] {t u : Tree α}

/-- The tree without the histories of its nodes, the largest accepted overlap ratio and the choice
of variant. -/
def plain (t : Tree α) : Tree α :=
  { t with config := t.config.plain, arena := t.arena.map Node.plain, stats := t.stats.plain }

theorem plain_eq_iff : u.plain = t.plain ↔
    u.config.plain = t.config.plain ∧ u.store = t.store ∧
      u.arena.map Node.plain = t.arena.map Node.plain ∧ u.free = t.free ∧ u.root = t.root ∧
      u.size = t.size ∧ u.stats.plain = t.stats.plain := by
  rw [plain, plain, Tree.mk.injEq]

/-- Unless the histories are asked, an X-tree divides a directory as the margin does. -/
theorem overlapSplit_eq_ok {id : NodeId} {decision : DirectoryDecision α}
    (h : t.overlapSplit id = .ok decision) :
    decision = .supernode ∨ ∃ p, decision = .partition p ∧
      (p.kind = .minOverlap ∨ t.directorySplit id = .ok { p with overlapRatio := none }) := by
  unfold overlapSplit at h
  obtain ⟨rects, hrects, h⟩ := bind_eq_ok.mp h
  obtain ⟨n, -, h⟩ := bind_eq_ok.mp h
  obtain ⟨histories, -, h⟩ := bind_eq_ok.mp h
  obtain rfl := Except.ok.inj h
  cases hdecision : overlapDecision rects histories t.dim t.config.minChildren
      t.config.maxOverlapRatio with
  | supernode => exact .inl rfl
  | partition p =>
    obtain ⟨b, hb⟩ := exists_accepted hdecision
    refine .inr ⟨p, rfl, hb.kind.imp_right ?_⟩
    intro ⟨hkind, hmargin⟩
    have hp : ({ p with overlapRatio := none } : Partition α) =
        Partition.leastMargin rects t.dim [.low, .high] t.config.minChildren := by
      rw [hmargin, hb.eq, hkind]
      rfl
    unfold directorySplit
    rw [hrects, hp]
    rfl

end Tree

end RTree
