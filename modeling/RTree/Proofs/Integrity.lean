import RTree.Proofs.Runs
import RTree.Proofs.Scalar.Binary64
import RTree.Proofs.Tree.Audit

namespace RTree

variable {α : Type} [Scalar α]

namespace Tree

/-- What is sound about the nodes that the root leads to. -/
structure Intact (t : Tree α) : Prop where
  inUse : ∀ x, t.Below t.root x → t.InUse x
  leaf : ∀ x, t.Below t.root x → (t.slot x).leaf = true →
    (t.slot x).points.length ≤ t.config.maxLeafSize ∧
      (x ≠ t.root → t.config.minLeafSize ≤ (t.slot x).points.length)
  directory : ∀ x, t.Below t.root x → (t.slot x).leaf = false →
    0 < (t.slot x).children.length ∧ (t.slot x).children.length ≤ (t.slot x).capacity ∧
      (x ≠ t.root → t.config.minChildren ≤ (t.slot x).children.length)
  bound : ∀ x, t.Below t.root x →
    ∃ r, t.tightBound (t.slot x) = .ok r ∧ (r == (t.slot x).bound) = true
  root_parent : (t.slot t.root).parent = none
  parent : ∀ x, t.Below t.root x → ∀ c ∈ (t.slot x).children, (t.slot c).parent = some x
  depth : ∃ d, ∀ leaf way, t.Way t.root leaf way → way.length = d
  live : ∀ x, ∀ p ∈ (t.slot x).points, t.contains p = true
  once : ∀ p, t.contains p = true → ∃ x, t.Below t.root x ∧ (t.slot x).leaf = true ∧
    (t.slot x).points.count p = 1 ∧ ∀ y, p ∈ (t.slot y).points → y = x

variable {t : Tree α} {lev : NodeId → Nat}

omit [Scalar α] in
theorem Way.length_eq (h : t.Linked lev []) {x l : NodeId} {way : List NodeId} (hx : t.InUse x)
    (hw : t.Way x l way) : way.length = lev x + 1 := by
  induction hw with
  | leaf hl =>
    rw [(h.leaf_iff _ hx).mp hl]
    rfl
  | down hc _ ih =>
    obtain ⟨hcu, -, hlev⟩ := h.child _ _ hc
    rw [List.length_cons, ih hcu, hlev]

variable [OrderedScalar α]

theorem Settled.intact (h : t.Settled) : t.Intact := by
  obtain ⟨lev, hs⟩ := h.sound
  have hreach : ∀ x, t.Below t.root x → t.InUse x :=
    fun x hx => hs.linked.inUse_of_below hs.linked.root hx
  refine
    { inUse := hreach, leaf := ?_, directory := ?_, bound := ?_
      root_parent := hs.linked.root_parent
      parent := fun x _ c hc => (hs.linked.child x c hc).2.1
      depth := ⟨lev t.root + 1, fun leaf way hw => hw.length_eq hs.linked hs.linked.root⟩
      live := ?_, once := ?_ }
  · intro x hx hl
    have hf := hs.filled x (hreach x hx)
    have hupper := hf.upper
    have hlower := hf.lower
    unfold room at hupper
    unfold minimumFill at hlower
    simp only [hl, if_true, Node.entryCount, excess_none, Nat.add_zero] at hupper hlower
    exact ⟨hupper, hlower⟩
  · intro x hx hl
    have hf := hs.filled x (hreach x hx)
    have hupper := hf.upper
    have hlower := hf.lower
    unfold room at hupper
    unfold minimumFill at hlower
    simp only [hl, Bool.false_eq_true, if_false, Node.entryCount, excess_none, Nat.add_zero]
      at hupper hlower
    exact ⟨List.length_pos_of_ne_nil (hs.children_ne_nil (hreach x hx) hl), hupper, hlower⟩
  · exact fun x hx => hs.tight (hreach x hx)
  · intro x p hp
    have hu := hs.linked.inUse_of_mem_points hp
    exact h.contains_iff.mpr ⟨x, hs.linked.below_root hu, hp⟩
  · intro p hp
    obtain ⟨x, hx, hpx⟩ := h.contains_iff.mp hp
    have hle := hs.registered.copies_le p
    have h1 := t.count_points_le_copies x p
    have h2 := List.count_pos_iff.mpr hpx
    refine ⟨x, hx, hs.linked.leaf_of_mem_points hpx, by omega, ?_⟩
    intro y hy
    exact eq_of_mem_points hle hy hpx

/-- After any calls the audit is valid, and what it is there to check holds. -/
theorem audit_valid {c : Config α} {t : Tree α} (h : Tree.new c = .ok t) (cs : List (Call α)) :
    (∃ r, (t.calls cs).2.audit = .ok r ∧ r.isValid = true) ∧ (t.calls cs).2.Intact :=
  ⟨audit_ok ((settled_new h).calls cs), ((settled_new h).calls cs).intact⟩

/-- Eight points, most of them at infinite distances from each other, and two removals. -/
def farApart : List (Call Float) :=
  [.insert [-1e308, 1e308], .insert [1e308, -1e308], .insert [1e308, 1e308],
    .insert [-1e308, -1e308], .insert [0, 0], .insert [1, 1], .insert [-1, -1], .insert [1e308, 0],
    .remove ⟨0⟩, .remove ⟨4⟩]

/-- Leaves and a directory are split and points are inserted again by distances that are infinite,
and two points are removed. -/
theorem audit_valid_far_apart :
    ∃ t r, ((ofConfig scant).calls farApart).2 = t ∧ t.audit = .ok r ∧ r.isValid = true ∧
      t.stats.leafSplits = 4 ∧ t.stats.directorySplits = 1 ∧ t.stats.forcedReinsertions = 4 ∧
      t.livePoints = [⟨1⟩, ⟨2⟩, ⟨3⟩, ⟨5⟩, ⟨6⟩, ⟨7⟩] := by
  obtain ⟨r, haudit, hvalid⟩ := (audit_valid (c := scant) rfl farApart).1
  refine ⟨_, r, rfl, haudit, hvalid, ?_⟩
  decide +kernel

end Tree

end RTree
