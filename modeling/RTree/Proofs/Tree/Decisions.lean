import RTree.Proofs.Split.Finalists
import RTree.Proofs.Tree.Shape
import RTree.Tree.Points

namespace RTree

variable {α : Type} [Scalar α]

/-- What the rest of the tree relies on when a leaf is decided about. -/
def LeafDecision.Fair (t : Tree α) (leaf : NodeId) (flags flags' : LevelFlags) :
    LeafDecision α → Prop
  | .partition p => p.Balanced (t.slot leaf).entryCount (t.minimumFill (t.slot leaf))
  | .reinsert count => count = t.config.reinsertionSize ∧ 0 < count ∧ t.config.variant ≠ .rTree ∧
      0 ∉ flags.used ∧ 0 ∈ flags'.used

def DirectoryDecision.Fair (t : Tree α) (id : NodeId) : DirectoryDecision α → Prop
  | .partition p => p.Balanced (t.slot id).entryCount (t.minimumFill (t.slot id))
  | .supernode => t.config.variant = .xTree

namespace Tree

variable {t : Tree α} {lev : NodeId → Nat} {extra : Option NodeId} {id : NodeId}

theorem axesExist_of_proper {rects : List (Rectangle α)} {d : Nat}
    (h : ∀ r ∈ rects, Rectangle.Proper d r) (edges : List Edge) :
    axesExist rects d edges = true :=
  axesExist_of_dim (fun r hr => (h r hr).dim.ge) edges

theorem sortableRects_ok [OrderedScalar α] (h : t.Shaped lev extra none []) (hid : t.InUse id)
    (edges : List Edge) : t.sortableRects id edges = .ok (t.rectsOf (t.slot id)) := by
  unfold sortableRects
  rw [bind_of_ok hid.node_eq, bind_of_ok (entryRects_ok (h.legible id)),
    if_pos (axesExist_of_proper (h.rectsOf_proper id) edges)]
  rfl

theorem seedSplit_ok (h : t.Shaped lev extra none []) (hid : t.InUse id) (minimum : Nat) :
    t.seedSplit id minimum = .ok (Partition.quadratic (t.rectsOf (t.slot id)) minimum) := by
  unfold seedSplit
  rw [bind_of_ok hid.node_eq, bind_of_ok (entryRects_ok (h.legible id))]
  rfl

/-- An overfull node has entries for two filled groups. -/
theorem Shaped.two_mul_minimumFill_le (h : t.Shaped lev extra none []) (hid : t.InUse id)
    (hfull : t.room (t.slot id) < (t.slot id).entryCount) :
    2 * t.minimumFill (t.slot id) ≤ (t.slot id).entryCount := by
  have h1 := h.feasible.leaf_halves
  have h2 := h.feasible.child_halves
  have h3 := (h.filled id hid).maxChildren_le
  unfold room at hfull
  unfold minimumFill
  split at hfull <;> rename_i hl
  · rw [if_pos hl]
    omega
  · rw [if_neg hl]
    omega

theorem Shaped.two_le_entryCount (h : t.Shaped lev extra none []) (hid : t.InUse id)
    (hfull : t.room (t.slot id) < (t.slot id).entryCount) : 2 ≤ (t.slot id).entryCount := by
  have h1 := h.feasible.two_le_maxLeafSize
  have h2 := h.feasible.two_le_maxChildren
  have h3 := (h.filled id hid).maxChildren_le
  unfold room at hfull
  split at hfull <;> omega

theorem balanced_quadratic (h : t.Shaped lev extra none []) (hid : t.InUse id)
    (hfull : t.room (t.slot id) < (t.slot id).entryCount) :
    (Partition.quadratic (t.rectsOf (t.slot id)) (t.minimumFill (t.slot id))).Balanced
      (t.slot id).entryCount (t.minimumFill (t.slot id)) := by
  have hlen := length_rectsOf t (t.slot id)
  have hle : 2 * t.minimumFill (t.slot id) ≤ (t.rectsOf (t.slot id)).length :=
    hlen ▸ h.two_mul_minimumFill_le hid hfull
  have hb := RTree.balanced_quadratic hle
  rwa [hlen] at hb

theorem balanced_leastMargin (h : t.Shaped lev extra none []) (hid : t.InUse id)
    (hfull : t.room (t.slot id) < (t.slot id).entryCount) {edges : List Edge} (he : edges ≠ []) :
    (Partition.leastMargin (t.rectsOf (t.slot id)) t.dim edges
      (t.minimumFill (t.slot id))).Balanced (t.slot id).entryCount (t.minimumFill (t.slot id)) := by
  have hlen := length_rectsOf t (t.slot id)
  have htwo : 2 ≤ (t.rectsOf (t.slot id)).length := hlen ▸ h.two_le_entryCount hid hfull
  have hle : 2 * t.minimumFill (t.slot id) ≤ (t.rectsOf (t.slot id)).length :=
    hlen ▸ h.two_mul_minimumFill_le hid hfull
  have hb := RTree.balanced_leastMargin (show 0 < t.dim from h.feasible.dimension_pos) he htwo hle
  rwa [hlen] at hb

/-- A leaf is reinserted from at most once; all else is a balanced partition. -/
theorem reinsertOrSplit_ok [OrderedScalar α] (h : t.Shaped lev extra none []) (hid : t.InUse id)
    (hleaf : (t.slot id).leaf = true) (hfull : t.room (t.slot id) < (t.slot id).entryCount)
    (hv : t.config.variant ≠ .rTree) (flags : LevelFlags) :
    ∃ decision flags', t.reinsertOrSplit id flags = .ok (decision, flags') ∧
      decision.Fair t id flags flags' ∧ ∀ l ∈ flags.used, l ∈ flags'.used := by
  have hlevel : t.level id = .ok 0 := (h.linked.leaf_iff id hid).mp hleaf ▸ h.level_ok hid
  have hmin : t.minimumFill (t.slot id) = t.config.minLeafSize := by simp [minimumFill, hleaf]
  have hsplit : t.leafSplit id = .ok (Partition.leastMargin (t.rectsOf (t.slot id)) t.dim [.low]
      (t.minimumFill (t.slot id))) := by
    unfold leafSplit
    rw [sortableRects_ok h hid, hmin]
    rfl
  have hspend : ∀ l ∈ flags.used, l ∈ (flags.spend 0).2.used := fun l hl => by simp [hl]
  have hre : t.reinsertion? id flags = .ok
      (if (flags.spend 0).1 && t.config.reinsertionSize != 0 then some t.config.reinsertionSize
        else none, (flags.spend 0).2) := by
    unfold reinsertion?
    rw [hlevel]
    rfl
  unfold reinsertOrSplit
  rw [bind_of_ok hre]
  by_cases hc : ((flags.spend 0).1 && t.config.reinsertionSize != 0) = true
  · rw [if_pos hc]
    refine ⟨.reinsert t.config.reinsertionSize, (flags.spend 0).2, rfl, ?_, hspend⟩
    rw [Bool.and_eq_true, bne_iff_ne, LevelFlags.spend_fst] at hc
    exact ⟨rfl, by omega, hv, by simpa using hc.1, by simp⟩
  · rw [if_neg hc]
    refine ⟨_, (flags.spend 0).2, bind_of_ok hsplit _, ?_, hspend⟩
    exact balanced_leastMargin h hid hfull (by simp)

theorem onLeaf_ok [OrderedScalar α] (h : t.Shaped lev extra none []) (hid : t.InUse id)
    (hleaf : (t.slot id).leaf = true) (hfull : t.room (t.slot id) < (t.slot id).entryCount)
    (flags : LevelFlags) :
    ∃ decision flags', t.strategy.onLeaf t id flags = .ok (decision, flags') ∧
      decision.Fair t id flags flags' ∧ ∀ l ∈ flags.used, l ∈ flags'.used := by
  unfold Tree.strategy
  cases hv : t.config.variant with
  | rTree =>
    have hmin : t.minimumFill (t.slot id) = t.config.minLeafSize := by simp [minimumFill, hleaf]
    have hb := balanced_quadratic h hid hfull
    rw [hmin] at hb
    refine ⟨.partition (Partition.quadratic (t.rectsOf (t.slot id)) t.config.minLeafSize), flags,
      ?_, ?_, fun l hl => hl⟩
    · exact bind_of_ok (seedSplit_ok h hid _) _
    · unfold LeafDecision.Fair
      rw [hmin]
      exact hb
  | rStar => exact reinsertOrSplit_ok h hid hleaf hfull (by simp [hv]) flags
  | xTree => exact reinsertOrSplit_ok h hid hleaf hfull (by simp [hv]) flags

/-- A leaf is divided by the quadratic rule or, where reinsertion comes first, by least margin. -/
theorem eq_of_onLeaf {leaf : NodeId} {p : Partition α} {flags flags' : LevelFlags}
    (h : t.strategy.onLeaf t leaf flags = .ok (.partition p, flags')) :
    (t.config.variant = .rTree ∧ ∃ rects minimum, p = .quadratic rects minimum) ∨
      t.config.variant ≠ .rTree ∧ ∃ rects, t.sortableRects leaf [.low] = .ok rects ∧
        p = .leastMargin rects t.dim [.low] t.config.minLeafSize := by
  have hre : t.reinsertOrSplit leaf flags = .ok (.partition p, flags') →
      ∃ rects, t.sortableRects leaf [.low] = .ok rects ∧
        p = .leastMargin rects t.dim [.low] t.config.minLeafSize := by
    intro h
    obtain ⟨⟨count, flags''⟩, -, h⟩ := bind_eq_ok.mp h
    cases count with
    | some count => cases h
    | none =>
      obtain ⟨q, hq, h⟩ := bind_eq_ok.mp h
      obtain ⟨rects, hrects, hq⟩ := bind_eq_ok.mp hq
      cases h
      cases hq
      exact ⟨rects, hrects, rfl⟩
  unfold Tree.strategy at h
  cases hv : t.config.variant with
  | rTree =>
    rw [hv] at h
    obtain ⟨q, hq, h⟩ := bind_eq_ok.mp h
    obtain ⟨n, -, hq⟩ := bind_eq_ok.mp hq
    obtain ⟨rects, -, hq⟩ := bind_eq_ok.mp hq
    cases h
    cases hq
    exact .inl ⟨rfl, rects, _, rfl⟩
  | rStar =>
    rw [hv] at h
    exact .inr ⟨by simp, hre h⟩
  | xTree =>
    rw [hv] at h
    exact .inr ⟨by simp, hre h⟩

/-- Each variant has its own rule for dividing a directory. -/
theorem eq_of_onDirectory {p : Partition α}
    (h : t.strategy.onDirectory t id = .ok (.partition p)) :
    (t.config.variant = .rTree ∧ ∃ rects minimum, p = .quadratic rects minimum) ∨
      (t.config.variant = .rStar ∧ ∃ rects, t.sortableRects id [.low, .high] = .ok rects ∧
        p = .leastMargin rects t.dim [.low, .high] t.config.minChildren) ∨
      t.config.variant = .xTree ∧ t.overlapSplit id = .ok (.partition p) := by
  unfold Tree.strategy at h
  cases hv : t.config.variant with
  | rTree =>
    rw [hv] at h
    obtain ⟨q, hq, h⟩ := bind_eq_ok.mp h
    obtain ⟨n, -, hq⟩ := bind_eq_ok.mp hq
    obtain ⟨rects, -, hq⟩ := bind_eq_ok.mp hq
    cases h
    cases hq
    exact .inl ⟨rfl, rects, _, rfl⟩
  | rStar =>
    rw [hv] at h
    obtain ⟨q, hq, h⟩ := bind_eq_ok.mp h
    obtain ⟨rects, hrects, hq⟩ := bind_eq_ok.mp hq
    cases h
    cases hq
    exact .inr (.inl ⟨rfl, rects, hrects, rfl⟩)
  | xTree =>
    rw [hv] at h
    exact .inr (.inr ⟨rfl, h⟩)

/-- A leaf is never divided with a look at the overlap. -/
theorem blind_onLeaf {leaf : NodeId} {p : Partition α} {flags flags' : LevelFlags}
    (h : t.strategy.onLeaf t leaf flags = .ok (.partition p, flags')) : p.Blind := by
  obtain ⟨-, rects, minimum, rfl⟩ | ⟨-, rects, -, rfl⟩ := eq_of_onLeaf h
  · exact Partition.blind_quadratic rects minimum
  · exact Partition.blind_leastMargin rects t.dim [.low] t.config.minLeafSize

/-- Only an X-tree looks at the overlap. -/
theorem blind_onDirectory {p : Partition α} (hv : t.config.variant ≠ .xTree)
    (h : t.strategy.onDirectory t id = .ok (.partition p)) : p.Blind := by
  obtain ⟨-, rects, minimum, rfl⟩ | ⟨-, rects, -, rfl⟩ | ⟨hx, -⟩ := eq_of_onDirectory h
  · exact Partition.blind_quadratic rects minimum
  · exact Partition.blind_leastMargin rects t.dim [.low, .high] t.config.minChildren
  · exact absurd hx hv

/-- An X-tree decides by the rectangles and the histories of the children. -/
theorem overlapSplit_of_sortable {n : Node α} {rects : List (Rectangle α)} (hn : t.node id = .ok n)
    (hrects : t.sortableRects id [.low, .high] = .ok rects)
    (hchildren : ∀ c ∈ n.children, c.index < t.arena.size) :
    t.overlapSplit id = .ok (overlapDecision rects (n.children.map fun c => (t.slot c).history)
      t.dim t.config.minChildren t.config.maxOverlapRatio) := by
  have hhist : (n.children.mapM fun child => return (← t.node child).history) =
      .ok (ε := Failure α) (n.children.map fun c => (t.slot c).history) :=
    mapM_ok fun c hc => by
      rw [node_eq (hchildren c hc)]
      rfl
  unfold overlapSplit
  rw [bind_of_ok hrects, bind_of_ok hn, bind_of_ok hhist]
  rfl

theorem overlapSplit_eq [OrderedScalar α] (h : t.Shaped lev extra none []) (hid : t.InUse id) :
    t.overlapSplit id = .ok (overlapDecision (t.rectsOf (t.slot id))
      ((t.slot id).children.map fun c => (t.slot c).history) t.dim t.config.minChildren
      t.config.maxOverlapRatio) :=
  overlapSplit_of_sortable hid.node_eq (sortableRects_ok h hid _) (h.legible id).children

theorem overlapSplit_ok [OrderedScalar α] (h : t.Shaped lev extra none []) (hid : t.InUse id)
    (hleaf : (t.slot id).leaf = false) (hfull : t.room (t.slot id) < (t.slot id).entryCount)
    (hv : t.config.variant = .xTree) :
    ∃ decision, t.overlapSplit id = .ok decision ∧ decision.Fair t id := by
  have hmin : t.minimumFill (t.slot id) = t.config.minChildren := by simp [minimumFill, hleaf]
  have hlen := length_rectsOf t (t.slot id)
  refine ⟨_, overlapSplit_eq h hid, ?_⟩
  unfold DirectoryDecision.Fair
  split
  · rename_i p hp
    obtain ⟨b, hb⟩ := exists_accepted hp
    rw [hmin, ← hlen]
    exact hb.balanced (hlen ▸ hmin ▸ h.two_mul_minimumFill_le hid hfull)
  · exact hv

theorem onDirectory_ok [OrderedScalar α] (h : t.Shaped lev extra none []) (hid : t.InUse id)
    (hleaf : (t.slot id).leaf = false) (hfull : t.room (t.slot id) < (t.slot id).entryCount) :
    ∃ decision, t.strategy.onDirectory t id = .ok decision ∧ decision.Fair t id := by
  have hmin : t.minimumFill (t.slot id) = t.config.minChildren := by simp [minimumFill, hleaf]
  unfold Tree.strategy
  cases hv : t.config.variant with
  | rTree =>
    have hb := balanced_quadratic h hid hfull
    refine ⟨.partition (Partition.quadratic (t.rectsOf (t.slot id)) t.config.minChildren), ?_, ?_⟩
    · exact bind_of_ok (seedSplit_ok h hid _) _
    · unfold DirectoryDecision.Fair
      rw [hmin] at hb ⊢
      exact hb
  | rStar =>
    have hb := balanced_leastMargin h hid hfull (show [Edge.low, Edge.high] ≠ [] by simp)
    refine ⟨.partition (Partition.leastMargin (t.rectsOf (t.slot id)) t.dim [.low, .high]
      t.config.minChildren), ?_, ?_⟩
    · have hsplit : t.directorySplit id = .ok (Partition.leastMargin (t.rectsOf (t.slot id)) t.dim
          [.low, .high] t.config.minChildren) := bind_of_ok (sortableRects_ok h hid _) _
      exact bind_of_ok hsplit _
    · unfold DirectoryDecision.Fair
      rw [hmin] at hb ⊢
      exact hb
  | xTree => exact overlapSplit_ok h hid hleaf hfull hv

/-- An overfull node has enough entries for a cut, so that halving is never called for. -/
theorem Shaped.cut_leastMargin (h : t.Shaped lev extra none []) (hid : t.InUse id)
    (hfull : t.room (t.slot id) < (t.slot id).entryCount) {edges : List Edge} (he : edges ≠ [])
    (minimum : Nat) :
    (Partition.leastMargin (t.rectsOf (t.slot id)) t.dim edges minimum).kind = .margin ∧
      ∃ axis < t.dim,
        (Partition.leastMargin (t.rectsOf (t.slot id)) t.dim edges minimum).axis = some axis := by
  have htwo : 2 ≤ (t.rectsOf (t.slot id)).length := by
    rw [length_rectsOf]
    exact h.two_le_entryCount hid hfull
  obtain ⟨edge, axis, haxis, cut, -, heq⟩ :=
    leastMargin_eq minimum (show 0 < t.dim from h.feasible.dimension_pos) he htwo
  rw [heq]
  exact ⟨rfl, axis, haxis, rfl⟩

theorem Shaped.cut_onLeaf [OrderedScalar α] (h : t.Shaped lev extra none []) (hid : t.InUse id)
    (hfull : t.room (t.slot id) < (t.slot id).entryCount) (hv : t.config.variant ≠ .rTree)
    {p : Partition α} {flags flags' : LevelFlags}
    (hd : t.strategy.onLeaf t id flags = .ok (.partition p, flags')) :
    p.kind = .margin ∧ ∃ axis < t.dim, p.axis = some axis := by
  obtain ⟨hr, -⟩ | ⟨-, rects, hrects, rfl⟩ := eq_of_onLeaf hd
  · exact absurd hr hv
  · rw [sortableRects_ok h hid] at hrects
    obtain rfl := Except.ok.inj hrects
    exact h.cut_leastMargin hid hfull (by simp) _

theorem Shaped.cut_onDirectory [OrderedScalar α] (h : t.Shaped lev extra none [])
    (hid : t.InUse id) (hfull : t.room (t.slot id) < (t.slot id).entryCount)
    (hv : t.config.variant ≠ .rTree) {p : Partition α}
    (hd : t.strategy.onDirectory t id = .ok (.partition p)) :
    (p.kind = .minOverlap ∨ p.kind = .margin) ∧ ∃ axis < t.dim, p.axis = some axis := by
  obtain ⟨hr, -⟩ | ⟨-, rects, hrects, rfl⟩ | ⟨-, hsplit⟩ := eq_of_onDirectory hd
  · exact absurd hr hv
  · rw [sortableRects_ok h hid] at hrects
    obtain rfl := Except.ok.inj hrects
    exact (h.cut_leastMargin hid hfull (by simp) _).imp_left .inr
  · rw [overlapSplit_eq h hid] at hsplit
    obtain ⟨b, hb⟩ := exists_accepted (Except.ok.inj hsplit)
    obtain ⟨edge, axis, haxis, hscore, -⟩ := hb.fromSorts
    refine ⟨hb.kind.imp_right And.left, axis, haxis, ?_⟩
    rw [hb.eq, hscore]
    rfl

end Tree

end RTree
