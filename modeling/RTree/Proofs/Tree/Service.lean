import RTree.Proofs.Tree.Steps

namespace RTree

variable {α : Type} [Scalar α]

theorem Tree.SameFrame.strategy {t t' : Tree α} (h : SameFrame t t') :
    t'.strategy = t.strategy := by
  unfold Tree.strategy
  rw [h.config]

namespace Strategy

structure Serves (s : Strategy α) (t : Tree α) : Prop where
  descent : s.descent = t.strategy.descent
  keepsHistory : s.keepsHistory = t.strategy.keepsHistory
  onLeaf : ∀ {es t' lev leaf}, Tree.Steps t es t' → t'.Overfull lev leaf → leaf ≠ t'.root →
    (t'.slot leaf).leaf = true → ∀ flags, s.onLeaf t' leaf flags = t'.strategy.onLeaf t' leaf flags
  onDirectory : ∀ {es t' lev id}, Tree.Steps t es t' → t'.Overfull lev id → id ≠ t'.root →
    (t'.slot id).leaf = false → s.onDirectory t' id = t'.strategy.onDirectory t' id

variable {s : Strategy α} {t t' : Tree α} {lev : NodeId → Nat} {id parent : NodeId}

theorem serves_self (t : Tree α) : t.strategy.Serves t where
  descent := rfl
  keepsHistory := rfl
  onLeaf := fun hs _ _ _ _ => by rw [hs.frame.strategy]
  onDirectory := fun hs _ _ _ => by rw [hs.frame.strategy]

namespace Serves

theorem steps {es : List (Event α)} (h : s.Serves t) (hs : Tree.Steps t es t') : s.Serves t' where
  descent := by rw [hs.frame.strategy, h.descent]
  keepsHistory := by rw [hs.frame.strategy, h.keepsHistory]
  onLeaf := fun hs' => h.onLeaf (hs.trans hs')
  onDirectory := fun hs' => h.onDirectory (hs.trans hs')

theorem step {e : Event α} (h : s.Serves t) (hs : Tree.Step t e t') : s.Serves t' :=
  h.steps hs.steps

/-- The decision about an overfull leaf below a parent. -/
theorem onLeaf_eq (h : s.Serves t) (hover : t.Overfull lev id) (hl : (t.slot id).leaf = true)
    (hm : id ∈ (t.slot parent).children) (flags : LevelFlags) :
    s.onLeaf t id flags = t.strategy.onLeaf t id flags :=
  h.onLeaf .nil hover (hover.shaped.linked.ne_root hm) hl flags

/-- The decision about an overfull directory below a parent. -/
theorem onDirectory_eq (h : s.Serves t) (hover : t.Overfull lev id)
    (hl : (t.slot id).leaf = false) (hm : id ∈ (t.slot parent).children) :
    s.onDirectory t id = t.strategy.onDirectory t id :=
  h.onDirectory .nil hover (hover.shaped.linked.ne_root hm) hl

end Serves

end Strategy

end RTree
