import RTree.Proofs.Tree.Dissolve

namespace RTree

variable {α : Type}

namespace Tree

variable {t : Tree α} {lev : NodeId → Nat} {id : NodeId}

section

variable [Scalar α]

def tightenNode (t : Tree α) (id : NodeId) : Tree α :=
  t.updateNode id fun n => { n with bound := t.hullOf (t.slot id) }

theorem slot_tightenNode (hid : t.InUse id) :
    (t.tightenNode id).slot =
      Function.update t.slot id { t.slot id with bound := t.hullOf (t.slot id) } :=
  slot_updateNode hid.lt _

theorem sameLinks_tightenNode (hid : t.InUse id) : SameLinks t (t.tightenNode id) :=
  sameLinks_updateNode hid rfl rfl rfl rfl fun _ => rfl

theorem condensed_tightenNode (hid : t.InUse id) : Condensed t (t.tightenNode id) [] where
  frame := (nodesOnly_updateNode t id _).frame
  stats := rfl
  size_arena := t.size_arena_updateNode id _
  kept := fun x hx => by
    refine ⟨((sameLinks_tightenNode hid).inUse x).mp hx, ?_⟩
    rw [slot_tightenNode hid]
    by_cases hxi : x = id
    · subst hxi
      exact ⟨(t.slot x).children, t.hullOf (t.slot x), Function.update_self ..⟩
    · exact ⟨(t.slot x).children, (t.slot x).bound, Function.update_of_ne hxi ..⟩
  copies := fun q => copies_updateNode_of_eq hid.lt rfl q

/-- Tightening a node makes it tight, provided that its parent is loose in any case. -/
theorem Shaped.tightenNode [OrderedScalar α] {extra lack : Option NodeId} {loose : List NodeId}
    (h : t.Shaped lev extra lack (id :: loose)) (hid : t.InUse id)
    (hp : ∀ y, id ∈ (t.slot y).children → y ∈ loose) :
    (t.tightenNode id).Shaped lev extra lack loose := by
  have hs := slot_tightenNode hid
  have hlinks := sameLinks_tightenNode hid
  have hslot : ∀ x, x ≠ id → (t.tightenNode id).slot x = t.slot x := fun x hx => by
    rw [hs, Function.update_of_ne hx]
  have hself : (t.tightenNode id).slot id = { t.slot id with bound := t.hullOf (t.slot id) } := by
    rw [hs, Function.update_self]
  have hentries : ∀ x, ((t.tightenNode id).slot x).entryCount = (t.slot x).entryCount ∧
      ((t.tightenNode id).slot x).capacity = (t.slot x).capacity := by
    intro x
    by_cases hx : x = id
    · subst hx
      rw [hself]
      exact ⟨rfl, rfl⟩
    · rw [hslot x hx]
      exact ⟨rfl, rfl⟩
  have hhull : Rectangle.IsHull t.dim (t.rectsOf (t.slot id)) (t.hullOf (t.slot id)) :=
    Rectangle.isHull_foldl (h.rectsOf_proper id) (Rectangle.isHull_nil t.dim)
  have hrects : ∀ x, id ∉ (t.slot x).children →
      (t.tightenNode id).rectsOf ((t.tightenNode id).slot x) = t.rectsOf (t.slot x) := by
    intro x hx
    have hn : (t.tightenNode id).rectsOf ((t.tightenNode id).slot x) =
        (t.tightenNode id).rectsOf (t.slot x) := by
      by_cases hxi : x = id
      · subst hxi
        rw [hself]
        rfl
      · rw [hslot x hxi]
    rw [hn]
    exact rectsOf_congr rfl fun c hc => by rw [hslot c fun he => hx (he ▸ hc)]
  refine
    { feasible := h.feasible
      linked := h.linked.congr hlinks
      filled := fun x hx => ?_
      fitted := ⟨fun x hx => ?_, fun x hx hl => ?_⟩
      registered := h.registered.congr hlinks.frame (condensed_tightenNode hid).copies }
  · exact (h.filled x ((hlinks.inUse x).mp hx)).congr rfl (Nat.le_refl _) Iff.rfl (hlinks.leaf x)
      (hentries x).1 (hentries x).2
  · by_cases hxi : x = id
    · subst hxi
      rw [hself]
      exact hhull.proper
    · rw [hslot x hxi]
      exact h.fitted.proper x ((hlinks.inUse x).mp hx)
  · rw [hrects x fun hm => hl (hp x hm)]
    by_cases hxi : x = id
    · subst hxi
      rw [hself]
      exact hhull
    · rw [hslot x hxi]
      exact h.fitted.hull x ((hlinks.inUse x).mp hx) fun hm => (List.mem_cons.mp hm).elim hxi hl

omit [Scalar α] in
/-- The way from the parent up to the root is left alone when a node below is dissolved. -/
theorem Dissolved.lineage {t' : Tree α} {parent : NodeId} {orphans : List PointId}
    {rest : List NodeId} (hd : Dissolved t t' lev id parent orphans) (h : t.Linked lev [])
    (hm : id ∈ (t.slot parent).children) (hrest : t.Lineage (parent :: rest)) :
    t'.Lineage (parent :: rest) := by
  obtain ⟨-, -, hlev⟩ := h.child parent id hm
  refine hrest.congr hd.frame.root fun x hx => ?_
  have hxr : x ∈ rest := by simpa using hx
  have hxlev := hrest.lt_level h x hxr
  have hxp : x ≠ parent := by
    intro heq
    subst heq
    omega
  have hxu := hd.above x (hrest.inUse h x (List.mem_cons_of_mem _ hxr)) (by omega)
  rw [(hd.kept x hxp hxu).2]

end

end Tree

namespace TreeM

open RTree.Tree

variable [Scalar α] {t : Tree α} {lev : NodeId → Nat}

theorem dissolve_ok {id parent : NodeId} (h : t.Linked lev [])
    (hm : id ∈ (t.slot parent).children) (hdeep : lev t.root < t.arena.size) :
    ∃ orphans t', (dissolve id parent).run t = .ok orphans t' ∧
      Dissolved t t' lev id parent orphans := by
  obtain ⟨hid, hpar, hlev⟩ := h.child parent id hm
  have hparent := h.inUse_of_mem_children hm
  have hne : parent ≠ id := (h.child_ne hm).symm
  obtain ⟨place, hplace, hrun_place⟩ := placeAmong_ok hparent.lt hm
  let t₁ := t.updateNode parent fun n => { n with children := n.children.eraseIdx place }
  have herase : (t.slot parent).children.erase id = (t.slot parent).children.eraseIdx place := by
    rw [List.erase_eq_eraseIdx, hplace]
  have hs₁ : t₁.slot = Function.update t.slot parent
      { t.slot parent with children := (t.slot parent).children.erase id } := by
    rw [herase]
    exact slot_updateNode hparent.lt _
  have hl₁ : t₁.Linked lev [id] :=
    h.unlist hm hs₁ (nodesOnly_updateNode _ _ _) (h.tidy.updateNode hparent hparent)
  have hu₁ : ∀ x, t₁.InUse x ↔ t.InUse x := inUse_updateNode hparent hparent
  have hz₁ : t₁.arena.size = t.arena.size := t.size_arena_updateNode parent _
  have hlim : lev id < t₁.walkLimit := by
    have := h.le_root id hid
    unfold walkLimit
    omega
  obtain ⟨orphans, t', hrun, hl', hp⟩ := detachFrom_ok hl₁ hlim
  refine ⟨orphans, t', ?_, ?_⟩
  · unfold dissolve
    rw [bind_ok hrun_place, bind_ok (modifyNode_ok hparent.lt _), get_bind]
    exact hrun
  · have habove : ∀ x, t.InUse x → lev id < lev x → t'.InUse x := fun x hx hl =>
      hp.above x ((hu₁ x).mpr hx) hl
    refine
      { frame := (nodesOnly_updateNode t parent _).frame.trans hp.frame
        stats := hp.stats
        size_arena := hp.size_arena.trans hz₁
        linked := hl'
        slot_parent := ?_
        kept := fun x hx hxu => ?_
        above := habove
        copies := fun q => ?_ }
    · rw [(hp.kept parent (habove parent hparent (by omega))).2, hs₁, Function.update_self]
    · obtain ⟨h1, h2⟩ := hp.kept x hxu
      rw [h2, hs₁, Function.update_of_ne hx]
      exact ⟨(hu₁ x).mp h1, rfl⟩
    · have h1 : t₁.copies q = t.copies q := copies_updateNode_of_eq hparent.lt rfl q
      have h2 := hp.copies q
      omega

/-- From a node with a lineage up to the root, all nodes get within their limits and tight. No node
is dissolved if they were within their limits before. -/
theorem condenseFrom_ok [OrderedScalar α] {limit : Nat} {id : NodeId} {rest : List NodeId}
    (h : t.Shaped lev none (some id) (id :: rest)) (hl : t.Lineage (id :: rest))
    (hlim : rest.length < limit) (hdeep : lev t.root < t.arena.size) :
    ∃ orphans t', (condenseFrom limit id).run t = .ok orphans t' ∧
      t'.Shaped lev none (some t'.root) [t'.root] ∧ Condensed t t' orphans ∧
        (t.Filled none none → orphans = [] ∧ SameLinks t t') := by
  induction rest generalizing t id limit with
  | nil =>
    obtain ⟨limit, rfl⟩ := Nat.exists_eq_add_one_of_ne_zero (Nat.ne_zero_of_lt hlim)
    cases hl
    refine ⟨[], t, ?_, h, .refl t, fun _ => ⟨rfl, .refl t⟩⟩
    unfold condenseFrom
    rw [bind_ok (getNode_ok h.linked.root.lt)]
    simp only [h.linked.root_parent]
    rfl
  | cons parent rest ih =>
    obtain ⟨limit, rfl⟩ := Nat.exists_eq_add_one_of_ne_zero (Nat.ne_zero_of_lt hlim)
    cases hl with
    | cons hm hrest =>
      obtain ⟨hid, hpar, -⟩ := h.linked.child parent id hm
      unfold condenseFrom
      rw [bind_ok (getNode_ok hid.lt)]
      simp only [hpar, get_bind]
      have hlim' : rest.length < limit := by
        simp only [List.length_cons] at hlim
        omega
      by_cases hfew : (t.slot id).entryCount < t.minimumFill (t.slot id)
      · rw [if_pos hfew]
        obtain ⟨orphans, t₁, hrun₁, hd⟩ := dissolve_ok h.linked hm hdeep
        have h₁ := hd.shaped hm h
        obtain ⟨more, t', hrun', h', hc', -⟩ := ih h₁ (hd.lineage h.linked hm hrest) hlim'
          (by rw [hd.frame.root, hd.size_arena]; exact hdeep)
        refine ⟨orphans ++ more, t', ?_, h', (hd.condensed h.linked hm).trans hc', ?_⟩
        · rw [bind_ok hrun₁, bind_ok hrun']
          rfl
        · intro hfilled
          have hmany := (hfilled id hid).lower (h.linked.ne_root hm)
          rw [excess_none] at hmany
          omega
      · rw [if_neg hfew]
        have h₁ : (t.tightenNode id).Shaped lev none none (parent :: rest) := by
          refine (h.enough (Nat.le_of_not_lt hfew)).tightenNode hid fun y hy => ?_
          rw [h.linked.owner_unique hy hm]
          exact List.mem_cons_self
        have h₂ : (t.tightenNode id).Shaped lev none (some parent) (parent :: rest) :=
          ⟨h₁.feasible, h₁.linked, h₁.filled.mono, h₁.fitted, h₁.registered⟩
        have hlinks := sameLinks_tightenNode hid
        have hl₁ : (t.tightenNode id).Lineage (parent :: rest) :=
          hrest.congr hlinks.frame.root fun x _ => hlinks.children x
        obtain ⟨more, t', hrun', h', hc', hsame⟩ := ih h₂ hl₁ hlim'
          (by rw [hlinks.frame.root, hlinks.size_arena]; exact hdeep)
        refine ⟨more, t', ?_, h', (condensed_tightenNode hid).trans hc', fun _ => ?_⟩
        · rw [bind_ok (tighten_ok hid.lt (h.legible id))]
          exact hrun'
        · obtain ⟨hnone, hlinks'⟩ := hsame h₁.filled
          exact ⟨hnone, hlinks.trans hlinks'⟩

end TreeM

namespace Tree

variable {t t' : Tree α} {lev : NodeId → Nat}

/-- The root has become a leaf, or only its bound is another. -/
structure RootSettled (t t' : Tree α) : Prop where
  frame : SameFrame t t'
  stats : t'.stats = t.stats
  free : t'.free = t.free
  size_arena : t'.arena.size = t.arena.size
  root : t'.InUse t.root ∧
    ((∃ b, t'.slot t.root = { t.slot t.root with bound := b }) ∨
      (t.slot t.root).children = [] ∧ ∃ b, t'.slot t.root =
        { t.slot t.root with leaf := true, capacity := t.config.maxChildren, bound := b })
  other : ∀ x, x ≠ t.root → t'.slot x = t.slot x
  copies : ∀ q, t'.copies q = t.copies q

theorem RootSettled.points (h : RootSettled t t') (x : NodeId) :
    (t'.slot x).points = (t.slot x).points := by
  by_cases hx : x = t.root
  · subst hx
    rcases h.root.2 with ⟨b, hb⟩ | ⟨-, b, hb⟩
    · rw [hb]
    · rw [hb]
  · rw [h.other x hx]

/-- A root that is a leaf or has children stays what it is. -/
theorem RootSettled.sameLinks (h : RootSettled t t')
    (hr : (t.slot t.root).leaf = true ∨ (t.slot t.root).children ≠ []) : SameLinks t t' := by
  have hslot : ∀ x, ∃ capacity b,
      t'.slot x = { t.slot x with capacity := capacity, bound := b } := by
    intro x
    by_cases hx : x = t.root
    · subst hx
      rcases h.root.2 with ⟨b, hb⟩ | ⟨hnone, b, hb⟩
      · exact ⟨(t.slot t.root).capacity, b, hb⟩
      · have hleaf : (t.slot t.root).leaf = true := hr.resolve_right fun hne => hne hnone
        exact ⟨t.config.maxChildren, b, hb.trans (by simp only [hleaf])⟩
    · exact ⟨(t.slot x).capacity, (t.slot x).bound, h.other x hx⟩
  exact
    { frame := h.frame
      free := h.free
      size_arena := h.size_arena
      leaf := fun x => by obtain ⟨_, _, hx⟩ := hslot x; rw [hx]
      children := fun x => by obtain ⟨_, _, hx⟩ := hslot x; rw [hx]
      parent := fun x => by obtain ⟨_, _, hx⟩ := hslot x; rw [hx]
      retired := fun x => by obtain ⟨_, _, hx⟩ := hslot x; rw [hx]
      points := fun x _ => h.points x }

/-- Without children the root is the only node. -/
theorem Linked.eq_root (h : t.Linked lev []) (hr : (t.slot t.root).children = []) {x : NodeId}
    (hx : t.InUse x) : x = t.root := by
  rcases Relation.ReflTransGen.cases_head (h.below_root hx) with he | ⟨c, hc, -⟩
  · exact he.symm
  · rw [hr] at hc
    cases hc

/-- A root that has lost its children can become a leaf. -/
theorem Shaped.leafRoot [Scalar α] (h : t.Shaped lev none (some t.root) [t.root])
    (hl : (t.slot t.root).leaf = false) (hc : (t.slot t.root).children = []) :
    (t.updateNode t.root fun n => { n with leaf := true, capacity := t.config.maxChildren }).Shaped
      (fun _ => 0) none none [t.root] := by
  have hroot := h.linked.root
  let t' := t.updateNode t.root fun n =>
    { n with leaf := true, capacity := t.config.maxChildren }
  have hs : t'.slot = Function.update t.slot t.root
      { t.slot t.root with leaf := true, capacity := t.config.maxChildren } :=
    slot_updateNode hroot.lt _
  have huse : ∀ x, t'.InUse x ↔ t.InUse x := inUse_updateNode hroot hroot
  have hself : t'.slot t.root =
      { t.slot t.root with leaf := true, capacity := t.config.maxChildren } := by
    rw [hs, Function.update_self]
  have hpoints := (h.linked.oneKind _ hroot).directory hl
  have honly : ∀ x, t'.InUse x → x = t.root := fun x hx => h.linked.eq_root hc ((huse x).mp hx)
  have hnone : ∀ x, (t'.slot x).children = [] := by
    intro x
    refine List.eq_nil_iff_forall_not_mem.mpr fun c hm => ?_
    by_cases hx : x = t.root
    · rw [hx, hself, hc] at hm
      cases hm
    · rw [hs, Function.update_of_ne hx] at hm
      exact hx (h.linked.eq_root hc (h.linked.inUse_of_mem_children hm))
  change t'.Shaped (fun _ => 0) none none [t.root]
  refine
    { feasible := h.feasible
      linked :=
        { tidy := h.linked.tidy.updateNode hroot hroot
          root := (huse _).mpr hroot
          root_parent := by
            change (t'.slot t.root).parent = none
            rw [hself]
            exact h.linked.root_parent
          oneKind := fun x hx => by
            rw [honly x hx, hself]
            exact ⟨fun _ => hc, fun _ => hpoints⟩
          leaf_iff := fun x hx => by
            rw [honly x hx, hself]
            simp
          nodup := fun x => by
            rw [hnone]
            exact List.nodup_nil
          child := fun x c hm => by
            rw [hnone] at hm
            cases hm
          owner := fun x hx hr _ => absurd (honly x hx) hr
          le_root := fun _ _ => le_refl _
          floating := by simp
          nodup_floating := List.nodup_nil }
      filled := fun x hx => ?_
      fitted := ⟨fun x hx => ?_, fun x hx hm => ?_⟩
      registered := h.registered.congr (nodesOnly_updateNode t _ _).frame fun q =>
        copies_updateNode_of_eq hroot.lt rfl q }
  · rw [honly x hx]
    have hcount : (t'.slot t.root).entryCount = 0 := by
      rw [hself]
      simp [Node.entryCount, hpoints]
    refine ⟨by omega, fun hr => absurd rfl hr, fun _ hf => ?_, 0, Nat.zero_le _, ?_, fun _ => rfl⟩
    · rw [hself] at hf
      simp at hf
    · rw [hself]
      simp [t', updateNode]
  · rw [honly x hx, hself]
    exact h.fitted.proper _ hroot
  · exact absurd (honly x hx) (by simpa using hm)

end Tree

namespace TreeM

open RTree.Tree

variable [Scalar α] {t : Tree α} {lev : NodeId → Nat}

theorem settleRoot_ok [OrderedScalar α] (h : t.Shaped lev none (some t.root) [t.root]) :
    ∃ t', settleRoot.run t = .ok () t' ∧ t'.Sound ∧ RootSettled t t' := by
  have hroot := h.linked.root
  unfold settleRoot
  rw [get_bind, bind_ok (getNode_ok hroot.lt)]
  by_cases hc : (t.slot t.root).leaf = false ∧ (t.slot t.root).children = []
  · obtain ⟨hl, hcs⟩ := hc
    let t₁ := t.updateNode t.root fun n =>
      { n with leaf := true, capacity := t.config.maxChildren }
    have hs₁ : t₁.slot = Function.update t.slot t.root
        { t.slot t.root with leaf := true, capacity := t.config.maxChildren } :=
      slot_updateNode hroot.lt _
    have h₁ : t₁.Shaped (fun _ => 0) none none [t.root] := h.leafRoot hl hcs
    have hroot₁ : t₁.InUse t.root := h₁.linked.root
    have hs' := slot_tightenNode hroot₁
    refine ⟨t₁.tightenNode t.root, ?_, ⟨_, h₁.tightenNode hroot₁ ?_⟩, ?_⟩
    · simp only [hl, hcs, Bool.not_false, List.isEmpty_nil, Bool.and_self, if_true, get_bind]
      rw [bind_ok (modifyNode_ok hroot.lt _)]
      exact tighten_ok hroot₁.lt (h₁.legible _)
    · exact fun y hy => absurd hy (h₁.linked.root_unlisted y)
    · refine ⟨(nodesOnly_updateNode t _ _).frame.trans (nodesOnly_updateNode t₁ _ _).frame, rfl,
        rfl, ?_, ⟨?_, .inr ⟨hcs, ?_⟩⟩, fun x hx => ?_, fun q => ?_⟩
      · exact (t₁.size_arena_updateNode _ _).trans (t.size_arena_updateNode _ _)
      · exact ((sameLinks_tightenNode hroot₁).inUse _).mpr hroot₁
      · refine ⟨t₁.hullOf (t₁.slot t.root), ?_⟩
        rw [hs', Function.update_self, hs₁, Function.update_self]
      · rw [hs', Function.update_of_ne hx, hs₁, Function.update_of_ne hx]
      · have h1 : t₁.copies q = t.copies q := copies_updateNode_of_eq hroot.lt rfl q
        have h2 := (condensed_tightenNode hroot₁).copies q
        simp only [List.count_nil, Nat.add_zero] at h2
        omega
  · have hfalse : (!(t.slot t.root).leaf && (t.slot t.root).children.isEmpty) = false := by
      rw [Bool.and_eq_false_iff]
      by_cases hl : (t.slot t.root).leaf = false
      · exact .inr (by simpa using fun he => hc ⟨hl, he⟩)
      · exact .inl (by simpa using hl)
    have hfilled : t.Filled none none := by
      intro x hx
      have hfx := h.filled x hx
      by_cases hxr : x = t.root
      · subst hxr
        refine ⟨hfx.upper, fun hr => absurd rfl hr, fun _ hl => ?_, hfx.capacity⟩
        have hne : (t.slot t.root).children ≠ [] := fun he => hc ⟨hl, he⟩
        have := List.length_pos_of_ne_nil hne
        simpa [Node.entryCount, hl] using this
      · rw [excess_of_ne hxr] at hfx
        exact hfx
    have hs : t.Shaped lev none none [t.root] :=
      ⟨h.feasible, h.linked, hfilled, h.fitted, h.registered⟩
    have hs' := slot_tightenNode hroot
    refine ⟨t.tightenNode t.root, ?_, ⟨lev, hs.tightenNode hroot ?_⟩, ?_⟩
    · rw [hfalse]
      exact tighten_ok hroot.lt (h.legible _)
    · exact fun y hy => absurd hy (h.linked.root_unlisted y)
    · refine ⟨(nodesOnly_updateNode t _ _).frame, rfl, rfl, t.size_arena_updateNode _ _,
        ⟨((sameLinks_tightenNode hroot).inUse _).mpr hroot, .inl ⟨t.hullOf (t.slot t.root), ?_⟩⟩,
        fun x hx => ?_, fun q => ?_⟩
      · rw [hs', Function.update_self]
      · rw [hs', Function.update_of_ne hx]
      · simpa using (condensed_tightenNode hroot).copies q

end TreeM

end RTree
