import RTree.Proofs.Tree.Growth
import RTree.Proofs.Tree.Service

namespace RTree

variable {α : Type} [Scalar α]

namespace Tree

variable {t t' t'' : Tree α} {lev : NodeId → Nat} {id parent copy : NodeId} {e : Event α}
  {es : List (Event α)}

/-- The excess is gone when the node has room. -/
theorem Shaped.fits {lack : Option NodeId} {loose : List NodeId}
    (h : t.Shaped lev (some id) lack loose)
    (hroom : (t.slot id).entryCount ≤ t.room (t.slot id)) : t.Shaped lev none lack loose where
  feasible := h.feasible
  linked := h.linked
  filled := by
    intro x hx
    have hfx := h.filled x hx
    rw [excess_none]
    by_cases hxi : x = id
    · subst hxi
      exact ⟨hroom, hfx.lower, hfx.root, hfx.capacity⟩
    · rw [excess_of_ne hxi] at hfx
      exact hfx
  fitted := h.fitted
  registered := h.registered

/-- After a split the parent has one child more, which may be one too many. -/
structure Relayed (t t' : Tree α) (lev lev' : NodeId → Nat) (parent : NodeId) : Prop where
  shaped : t'.Shaped lev' (some parent) none []
  inUse : t'.InUse parent
  leaf : (t'.slot parent).leaf = false
  level : lev' parent = lev parent
  level_root : lev' t'.root = lev t.root
  length : (t'.slot parent).children.length = (t.slot parent).children.length + 1
  capacity : (t'.slot parent).capacity = (t.slot parent).capacity

theorem Split.relayed [OrderedScalar α] {keepsHistory : Bool} {first second : NodeId}
    {p : Partition α} (hs : Split t t' keepsHistory id parent first second p)
    (h : t.Shaped lev (some id) none []) (hm : id ∈ (t.slot parent).children)
    (hb : p.Balanced (t.slot id).entryCount (t.minimumFill (t.slot id))) :
    Relayed t t' lev (Split.levels lev id first second) parent := by
  have hparent := h.linked.inUse_of_mem_children hm
  have hshaped := hs.shaped hb h hm
  have hperm := hs.children_parent_perm
  have hfirst : first ∈ (t'.slot parent).children := hperm.mem_iff.mpr (by simp)
  obtain ⟨place, -, hslot⟩ := hs.slot_parent
  refine
    { shaped := hshaped
      inUse := hshaped.linked.inUse_of_mem_children hfirst
      leaf := hshaped.linked.leaf_false_of_mem_children hfirst
      level := hs.levels_eq lev hparent
      level_root := ?_
      length := hs.length_children
      capacity := ?_ }
  · rw [hs.frame.root]
    exact hs.levels_eq lev h.linked.root
  · rw [hslot]

/-- The parent of an only child has room for two. -/
theorem Relayed.few {lev' : NodeId → Nat} (h : Relayed t t' lev lev' parent)
    (hone : (t.slot parent).children.length = 1) :
    (t'.slot parent).children.length ≤ (t'.slot parent).capacity := by
  have hlength := h.length
  have hcap := (h.shaped.filled parent h.inUse).maxChildren_le
  have htwo := h.shaped.feasible.two_le_maxChildren
  omega

/-- A directory within its limit is not overfull. -/
theorem Shaped.fits_directory {lack : Option NodeId} {loose : List NodeId}
    (h : t.Shaped lev (some id) lack loose) (hleaf : (t.slot id).leaf = false)
    (hfew : (t.slot id).children.length ≤ (t.slot id).capacity) :
    t.Shaped lev none lack loose := by
  apply h.fits
  simpa [Node.entryCount, room, hleaf] using hfew

theorem Overfull.not_fits (h : t.Overfull lev id) (hleaf : (t.slot id).leaf = false) :
    ¬(t.slot id).children.length ≤ (t.slot id).capacity := by
  simpa [Node.entryCount, room, hleaf] using h.full

theorem Overfull.exists_parent (h : t.Overfull lev id) (hroot : id ≠ t.root) :
    ∃ parent, id ∈ (t.slot parent).children :=
  h.shaped.linked.owner id h.inUse hroot (by simp)

/-- An overfull leaf has one point too many. -/
theorem Overfull.length_points (h : t.Overfull lev id) (hl : (t.slot id).leaf = true) :
    (t.slot id).points.length = t.config.maxLeafSize + 1 := by
  have hfull := h.full
  have hmost := (h.shaped.filled id h.inUse).upper
  simp only [room, Node.entryCount, hl, if_true, excess_self] at hfull hmost
  omega

/-- An overfull directory has one child too many. -/
theorem Overfull.length_children (h : t.Overfull lev id) (hl : (t.slot id).leaf = false) :
    (t.slot id).children.length = (t.slot id).capacity + 1 := by
  have hfull := h.full
  have hmost := (h.shaped.filled id h.inUse).upper
  simp only [room, Node.entryCount, hl, Bool.false_eq_true, if_false, excess_self] at hfull hmost
  omega

/-- A stretch of a call in which nodes are divided or get more room until none is overfull. -/
structure Resolved (t t' : Tree α) (es : List (Event α)) : Prop where
  sound : t'.Sound
  steps : Steps t es t'
  noReinsertion : es.countP Event.endsReinsertion = 0
  mending : Mending es
  growth : Growth t t'
  copies : ∀ q, t'.copies q = t.copies q

namespace Resolved

theorem refl (h : t.Sound) : Resolved t t [] :=
  ⟨h, .nil, rfl, fun _ => List.forall_mem_nil _, .refl, fun _ => rfl⟩

theorem cons (hs : Step t e t') (he : e.resolves = true) (hc : ∀ q, t'.copies q = t.copies q)
    (h : Resolved t' t'' es) : Resolved t t'' (e :: es) where
  sound := h.sound
  steps := .cons hs h.steps
  noReinsertion := by
    rw [List.countP_cons_of_neg (by simp [Event.endsReinsertion_of_resolves he])]
    exact h.noReinsertion
  mending := .cons (Event.mends_of_resolves he) h.mending
  growth := .head (.resolve hs he) h.growth
  copies := fun q => (h.copies q).trans (hc q)

/-- At the root it takes two steps. -/
theorem raise {t₁ : Tree α} (hs : Step t (.promote copy) t₁) (hc : ∀ q, t₁.copies q = t.copies q)
    (hs' : Step t₁ e t') (he : e.resolves = true) (hc' : ∀ q, t'.copies q = t₁.copies q)
    (h : t'.Sound) : Resolved t t' [.promote copy, e] where
  sound := h
  steps := .cons hs hs'.steps
  noReinsertion := by
    rw [List.countP_cons_of_neg Bool.false_ne_true]
    simp [Event.endsReinsertion_of_resolves he]
  mending := .cons rfl (.cons (Event.mends_of_resolves he) fun _ => List.forall_mem_nil _)
  growth := .single (.raise hs hs' he)
  copies := fun q => (hc' q).trans (hc q)

end Resolved

end Tree

namespace TreeM

open RTree.Tree

variable {t : Tree α} {lev : NodeId → Nat} {id parent : NodeId}

/-- An overfull node is divided by a balanced partition; the division is counted before. -/
theorem splitOverfull_ok [OrderedScalar α] {p : Partition α} (h : t.Overfull lev id)
    (hm : id ∈ (t.slot parent).children)
    (hb : p.Balanced (t.slot id).entryCount (t.minimumFill (t.slot id)))
    {f : Counters α → Counters α}
    (hf : (f t.stats).supernodeGrowths = t.stats.supernodeGrowths) (keepsHistory : Bool) :
    ∃ first second t' lev', (splitNode keepsHistory id p).run (t.updateStats f) = .ok parent t' ∧
      Split (t.updateStats f) t' keepsHistory id parent first second p ∧
      Relayed t t' lev lev' parent := by
  have hcounted := h.shaped.updateStats hf
  have hmin := minimumFill_pos h.shaped.feasible (t.slot id)
  obtain ⟨first, second, t', hrun, hs⟩ :=
    splitNode_ok keepsHistory hcounted.linked (hcounted.legible id) hm hmin hb
  have hr := hs.relayed hcounted hm hb
  exact ⟨first, second, t', _, hrun, hs, hr.shaped, hr.inUse, hr.leaf, hr.level, hr.level_root,
    hr.length, hr.capacity⟩

/-- What may come of an overfull directory below a parent. -/
inductive Treated (t : Tree α) (lev : NodeId → Nat) (id parent : NodeId) : Prop
  | supernode {t' : Tree α} {e : Event α} (hd : t.strategy.onDirectory t id = .ok .supernode)
      (hrun : (makeSupernode id).run t = .ok () t') (hs : t'.Sound) (hstep : Step t e t')
      (he : e.resolves = true) (hc : ∀ q, t'.copies q = t.copies q)
  | partition {p : Partition α} {t' : Tree α} {lev' : NodeId → Nat}
      (hd : t.strategy.onDirectory t id = .ok (.partition p))
      (hrun : (splitNode t.strategy.keepsHistory id p).run t.countDirectorySplit = .ok parent t')
      (hr : Relayed t t' lev lev' parent) (hstep : Step t (.splitDirectory id p) t')
      (hc : ∀ q, t'.copies q = t.copies q)

/-- An overfull only child of the root gives way to it. -/
theorem absorb_ok (h : t.Overfull lev id) (hleaf : (t.slot id).leaf = false)
    (honly : (t.slot t.root).children = [id]) :
    ∃ t', (makeSupernode id).run t = .ok () t' ∧ Absorbed t t' id := by
  have hleast := (h.shaped.filled t.root h.shaped.linked.root).maxChildren_le
  have hpos := h.shaped.feasible.maxChildren_pos
  exact makeSupernode_absorb h.shaped.linked honly hleaf (by omega)

theorem treated [OrderedScalar α] (h : t.Overfull lev id) (hleaf : (t.slot id).leaf = false)
    (hm : id ∈ (t.slot parent).children) : Treated t lev id parent := by
  obtain ⟨decision, hd, hfair⟩ := onDirectory_ok h.shaped h.inUse hleaf h.full
  cases decision with
  | partition p =>
    obtain ⟨first, second, t', lev', hrun, hs, hr⟩ :=
      splitOverfull_ok h hm hfair
        (f := fun s => { s with directorySplits := s.directorySplits + 1 }) rfl
        t.strategy.keepsHistory
    exact .partition hd hrun hr (.splitDirectory h hleaf hm hd hfair hs) hs.copies
  | supernode =>
    by_cases honly : (t.slot t.root).children = [id]
    · obtain ⟨t', hrun, hs⟩ := absorb_ok h hleaf honly
      have hsound : t'.Sound := ⟨_, hs.shaped h.shaped honly hleaf hfair⟩
      exact .supernode hd hrun hsound (.absorb h hleaf honly hd hs) rfl hs.copies
    · have hrun := makeSupernode_widen h.shaped.linked hm honly
      have hsound : (t.widenNode id).Sound := ⟨_, h.shaped.widenNode h.inUse hleaf hfair⟩
      exact .supernode hd hrun hsound (.widen h hleaf hm hd honly) rfl
        fun q => copies_updateNode_of_eq h.inUse.lt rfl q

/-- The walk ends at a directory within its limit. -/
theorem resolveDirectories_fits (s : Strategy α) (limit : Nat) (hid : t.InUse id)
    (hfew : (t.slot id).children.length ≤ (t.slot id).capacity) :
    (resolveDirectories s (limit + 1) id).run t = .ok () t := by
  unfold resolveDirectories
  rw [bind_ok (getNode_ok hid.lt), if_pos hfew]
  rfl

def carryOut (s : Strategy α) (limit : Nat) (id : NodeId) : DirectoryDecision α → TreeM α Unit
  | .supernode => makeSupernode id
  | .partition p => do
    modifyStats fun s => { s with directorySplits := s.directorySplits + 1 }
    let parent ← splitNode s.keepsHistory id p
    resolveDirectories s limit parent

/-- At an overfull directory below the root the walk does what is decided about it. -/
theorem resolveDirectories_below {s : Strategy α} {decision : DirectoryDecision α} (limit : Nat)
    (hid : t.InUse id) (hwide : ¬(t.slot id).children.length ≤ (t.slot id).capacity)
    (hroot : id ≠ t.root) (hd : s.onDirectory t id = .ok decision) :
    (resolveDirectories s (limit + 1) id).run t = (carryOut s limit id decision).run t := by
  unfold resolveDirectories
  rw [bind_ok (getNode_ok hid.lt), if_neg hwide]
  simp only [get_bind, if_neg hroot, pure_bind]
  rw [bind_ok (query_ok hd)]
  cases decision <;> rfl

/-- At an overfull root it does what is decided about the copy that the root is pushed down to. -/
theorem resolveDirectories_promoted {s : Strategy α} {decision : DirectoryDecision α} (limit : Nat)
    {copy : NodeId} {t₁ : Tree α} (hid : t.InUse t.root)
    (hwide : ¬(t.slot t.root).children.length ≤ (t.slot t.root).capacity)
    (hrun : pushDownRoot.run t = .ok copy t₁) (hd : s.onDirectory t₁ copy = .ok decision) :
    (resolveDirectories s (limit + 1) t.root).run t = (carryOut s limit copy decision).run t₁ := by
  unfold resolveDirectories
  rw [bind_ok (getNode_ok hid.lt), if_neg hwide]
  simp only [get_bind, if_true]
  rw [bind_ok hrun, bind_ok (query_ok hd)]
  cases decision <;> rfl

/-- From an overfull root the walk goes down to its copy and back. -/
theorem resolveDirectories_root [OrderedScalar α] {limit : Nat} (h : t.Overfull lev t.root)
    (hleaf : (t.slot t.root).leaf = false) (hlimit : 0 < limit) :
    ∃ es t', (∀ s : Strategy α, s.Serves t →
        (resolveDirectories s (limit + 1) t.root).run t = .ok () t') ∧ Resolved t t' es := by
  obtain ⟨limit, rfl⟩ := Nat.exists_eq_add_of_lt hlimit
  rw [Nat.zero_add]
  obtain ⟨copy, t₁, hrun₁, hp⟩ := pushDownRoot_ok h.shaped.linked
  obtain ⟨hover₁, honly, hleaf₁⟩ := h.pushedDown hp
  rw [hleaf] at hleaf₁
  have hm₁ : copy ∈ (t₁.slot t₁.root).children := by simp [honly]
  have hstep₁ : Step t (.promote copy) t₁ := .promote h hp
  have hwalk {s : Strategy α} (hs : s.Serves t) {decision : DirectoryDecision α}
      (hd : t₁.strategy.onDirectory t₁ copy = .ok decision) :
      (resolveDirectories s (limit + 1 + 1) t.root).run t =
        (carryOut s (limit + 1) copy decision).run t₁ := by
    have hsame := (hs.step hstep₁).onDirectory_eq hover₁ hleaf₁ hm₁
    exact resolveDirectories_promoted _ h.inUse (h.not_fits hleaf) hrun₁ (hsame.trans hd)
  cases treated hover₁ hleaf₁ hm₁ with
  | @supernode t₂ e hd hrun hsound hstep he hc =>
    exact ⟨[.promote copy, e], t₂, fun s hs => (hwalk hs hd).trans hrun,
      .raise hstep₁ hp.copies hstep he hc hsound⟩
  | @partition p t₂ lev₂ hd hrun hr hstep hc =>
    have hfew := hr.few (by simp [honly])
    refine ⟨[.promote copy, .splitDirectory copy p], t₂, fun s hs => ?_,
      .raise hstep₁ hp.copies hstep rfl hc ⟨lev₂, hr.shaped.fits_directory hr.leaf hfew⟩⟩
    rw [hwalk hs hd, carryOut, modifyStats_bind, (hs.step hstep₁).keepsHistory]
    exact (bind_ok hrun _).trans (resolveDirectories_fits s limit hr.inUse hfew)

/-- Once all directories are within their limits, so is the tree. The walk goes up from an overfull
directory. -/
theorem resolveDirectories_ok [OrderedScalar α] {limit : Nat} (h : t.Shaped lev (some id) none [])
    (hid : t.InUse id) (hleaf : (t.slot id).leaf = false)
    (hlim : lev t.root + 1 < limit + lev id) :
    ∃ es t', (∀ s : Strategy α, s.Serves t →
        (resolveDirectories s limit id).run t = .ok () t') ∧ Resolved t t' es := by
  induction limit generalizing t lev id with
  | zero =>
    have := h.linked.le_root id hid
    omega
  | succ limit ih =>
    by_cases hfew : (t.slot id).children.length ≤ (t.slot id).capacity
    · exact ⟨[], t, fun s _ => resolveDirectories_fits s limit hid hfew,
        .refl ⟨lev, h.fits_directory hleaf hfew⟩⟩
    · have hextra : t.Overfull lev id := by
        refine ⟨h, hid, ?_⟩
        simpa [Node.entryCount, room, hleaf] using hfew
      by_cases hroot : id = t.root
      · subst hroot
        exact resolveDirectories_root hextra hleaf (by omega)
      · obtain ⟨parent, hm⟩ := hextra.exists_parent hroot
        have hlevel := (h.linked.child parent id hm).2.2
        have hwalk {s : Strategy α} (hs : s.Serves t) {decision : DirectoryDecision α}
            (hd : t.strategy.onDirectory t id = .ok decision) :
            (resolveDirectories s (limit + 1) id).run t = (carryOut s limit id decision).run t :=
          resolveDirectories_below limit hid hfew hroot
            ((hs.onDirectory_eq hextra hleaf hm).trans hd)
        cases treated hextra hleaf hm with
        | @supernode t₂ e hd hrun hsound hstep he hc =>
          exact ⟨[e], t₂, fun s hs => (hwalk hs hd).trans hrun,
            .cons hstep he hc (.refl hsound)⟩
        | @partition p t₂ lev₂ hd hrun hr hstep hc =>
          have hlim₂ : lev₂ t₂.root + 1 < limit + lev₂ parent := by
            rw [hr.level, hr.level_root]
            omega
          obtain ⟨es, t', hrun', hrest⟩ := ih hr.shaped hr.inUse hr.leaf hlim₂
          refine ⟨.splitDirectory id p :: es, t', fun s hs => ?_, .cons hstep rfl hc hrest⟩
          rw [hwalk hs hd, carryOut, modifyStats_bind, hs.keepsHistory]
          exact (bind_ok hrun _).trans (hrun' s (hs.step hstep))

theorem resolveDirectory_ok [OrderedScalar α] (h : t.Shaped lev (some id) none [])
    (hid : t.InUse id) (hleaf : (t.slot id).leaf = false) :
    ∃ es t', (∀ s : Strategy α, s.Serves t → (resolveDirectory s id).run t = .ok () t') ∧
      Resolved t t' es := by
  have hlim : lev t.root + 1 < t.walkLimit + 1 + lev id := by
    have hdeep := h.level_root_lt_limit
    omega
  exact resolveDirectories_ok h hid hleaf hlim

end TreeM

end RTree
