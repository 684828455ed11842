import RTree.Proofs.Capacities
import RTree.Proofs.Tree.Midway

namespace RTree

variable {α : Type} [Scalar α]

namespace Tree

/-- The node is below the root, all other nodes are within their upper limits, and all bounds and
parents are right. -/
structure InOrderBut (t : Tree α) (id : NodeId) : Prop where
  below : t.Below t.root id
  ne_root : id ≠ t.root
  fits : ∀ x, t.Below t.root x → x ≠ id → (t.slot x).entryCount ≤ t.room (t.slot x)
  tight : ∀ x, t.Below t.root x → t.Tight x
  root_parent : (t.slot t.root).parent = none
  parent : ∀ x, t.Below t.root x → ∀ y ∈ (t.slot x).children, (t.slot y).parent = some x

structure LeafQuestion (c : Config α) (t : Tree α) (id : NodeId) : Prop
    extends t.InOrderBut id where
  config : t.config = c
  leaf : (t.slot id).leaf = true
  length : (t.slot id).points.length = c.maxLeafSize + 1

/-- A directory with one child more than its capacity, which is the configured one or a multiple of
it. -/
structure DirectoryQuestion (c : Config α) (t : Tree α) (id : NodeId) : Prop
    extends t.InOrderBut id where
  config : t.config = c
  leaf : (t.slot id).leaf = false
  length : (t.slot id).children.length = (t.slot id).capacity + 1
  maxChildren_le : c.maxChildren ≤ (t.slot id).capacity
  doubled : ∃ k, (t.slot id).capacity = c.maxChildren * 2 ^ k

variable [OrderedScalar α] {c : Config α} {t : Tree α} {lev : NodeId → Nat} {id : NodeId}

theorem Overfull.inOrderBut (h : t.Overfull lev id) (hroot : id ≠ t.root) : t.InOrderBut id := by
  have hlinked := h.shaped.linked
  have hreach : ∀ x, t.Below t.root x → t.InUse x :=
    fun x hx => hlinked.inUse_of_below hlinked.root hx
  refine
    { below := hlinked.below_root h.inUse, ne_root := hroot, fits := ?_
      tight := fun x hx => h.shaped.tight (hreach x hx)
      root_parent := hlinked.root_parent
      parent := fun x _ y hy => (hlinked.child x y hy).2.1 }
  intro x hx hne
  have hupper := (h.shaped.filled x (hreach x hx)).upper
  rwa [excess_of_ne hne, Nat.add_zero] at hupper

theorem Asked.leafQuestion (h : t.Asked c id) (hc : c.validate = .ok ())
    (hl : (t.slot id).leaf = true) : LeafQuestion c t id := by
  obtain ⟨lev, hover⟩ := h.overfull hc
  have hconfig := h.midway.config hc
  refine ⟨hover.inOrderBut h.ne_root, hconfig, hl, ?_⟩
  rw [← hconfig]
  exact hover.length_points hl

theorem Asked.directoryQuestion (h : t.Asked c id) (hc : c.validate = .ok ())
    (hl : (t.slot id).leaf = false) : DirectoryQuestion c t id := by
  obtain ⟨lev, hover⟩ := h.overfull hc
  have hconfig := h.midway.config hc
  have hfilled := hover.shaped.filled id hover.inUse
  obtain ⟨k, -, hcapacity, -⟩ := hfilled.capacity
  refine ⟨hover.inOrderBut h.ne_root, hconfig, hl, hover.length_children hl, ?_, k, ?_⟩
  · exact hconfig ▸ hfilled.maxChildren_le
  · exact hconfig ▸ hcapacity

/-- A strategy that checks each question before it decides, and refuses one that is not as it should
be, makes every run as the variant's own does: whatever it refuses with, it never refuses. -/
theorem consultations_lawful {t₀ : Tree α} (h : Tree.new c = .ok t₀) (refusal : Failure α)
    (ks : List (Call α)) :
    t₀.callsBy (c.variant.strategy.guarded (LeafQuestion c) (DirectoryQuestion c) refusal) ks =
      t₀.calls ks := by
  obtain ⟨hvalid, rfl⟩ := new_eq_ok.mp h
  exact callsBy_guarded hvalid (fun t leaf ht hl => ht.leafQuestion hvalid hl)
    (fun t id ht hl => ht.directoryQuestion hvalid hl) refusal ks

/-- As `narrow`, but one point of an overfull leaf is inserted again before it is split. -/
def yielding : Config Float := { narrow with reinsertFraction := 0.5 }

def visits : List (Call Float) :=
  [.insert [5, 4], .insert [5, 0], .insert [3, 3], .insert [1, 6], .insert [6, 4], .insert [3, 6],
    .insert [0, 1], .insert [2, 5], .insert [2, 1], .remove ⟨0⟩, .remove ⟨5⟩, .clear]

/-- Nine points ask for splits of leaves and directories, for reinsertions and for a supernode, and
no question is refused. A strategy that refuses all of them is found out at the third point. -/
theorem consultations_lawful_yielding :
    (∃ t, t = ((ofConfig yielding).callsBy (yielding.variant.strategy.guarded
        (LeafQuestion yielding) (DirectoryQuestion yielding) .endless) visits).2 ∧
      t.stats.leafSplits = 5 ∧ t.stats.directorySplits = 1 ∧ t.stats.supernodeGrowths = 1 ∧
      t.stats.forcedReinsertions = 5) ∧
    ((ofConfig yielding).callsBy (yielding.variant.strategy.guarded (fun _ _ => False)
        (fun _ _ => False) .endless) (visits.take 3)).1.map Answer.isInserted =
      [true, true, false] := by
  constructor
  · rw [consultations_lawful (c := yielding) rfl]
    refine ⟨_, rfl, ?_⟩
    decide +kernel
  · have hmute : (yielding.variant.strategy : Strategy Float).guarded (fun _ _ => False)
        (fun _ _ => False) .endless =
          { (yielding.variant.strategy : Strategy Float) with
            onLeaf := fun _ _ _ => .error .endless
            onDirectory := fun _ _ => .error .endless } := by
      simp [Strategy.guarded]
    rw [hmute]
    decide +kernel

end Tree

end RTree
