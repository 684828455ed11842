import RTree.Proofs.Sorting
import RTree.Proofs.Tree.Shape
import RTree.Tree.Cascade

namespace RTree

variable {α : Type}

namespace Tree

/-- The nodes met on the way down from one node to a leaf, each listed by the one before. -/
inductive Way (t : Tree α) : NodeId → NodeId → List NodeId → Prop
  | leaf {x : NodeId} (hl : (t.slot x).leaf = true) : Way t x x [x]
  | down {x c l : NodeId} {way : List NodeId} (hc : c ∈ (t.slot x).children) (h : Way t c l way) :
      Way t x l (x :: way)

variable {t t' : Tree α} {lev : NodeId → Nat} {x l : NodeId} {way : List NodeId}

namespace Way

theorem congr (h : t.Way x l way) (hl : ∀ y, (t'.slot y).leaf = (t.slot y).leaf)
    (hc : ∀ y, (t'.slot y).children = (t.slot y).children) : t'.Way x l way := by
  induction h with
  | leaf hleaf => exact .leaf (hl _ ▸ hleaf)
  | down hm _ ih => exact .down (hc _ ▸ hm) ih

theorem leaf_eq_true (h : t.Way x l way) : (t.slot l).leaf = true := by
  induction h with
  | leaf hl => exact hl
  | down _ _ ih => exact ih

theorem head_mem (h : t.Way x l way) : x ∈ way := by
  cases h with
  | leaf => simp
  | down => simp

theorem last_mem (h : t.Way x l way) : l ∈ way := by
  induction h with
  | leaf => simp
  | down _ _ ih => exact List.mem_cons_of_mem _ ih

theorem getLast?_eq (h : t.Way x l way) : way.getLast? = some l := by
  induction h with
  | leaf => rfl
  | @down x c l way hc h ih =>
    cases way with
    | nil => cases h
    | cons y way => simpa [List.getLast?_cons_cons] using ih

/-- Every node on the way but the leaf lists another one on the way. -/
theorem exists_child_mem (h : t.Way x l way) : ∀ y ∈ way, y ≠ l →
    ∃ c ∈ (t.slot y).children, c ∈ way := by
  induction h with
  | leaf =>
    intro y hy hne
    exact absurd (List.mem_singleton.mp hy) hne
  | down hc h ih =>
    intro y hy hne
    rcases List.mem_cons.mp hy with rfl | hy
    · exact ⟨_, hc, List.mem_cons_of_mem _ h.head_mem⟩
    · obtain ⟨c, hc, hcm⟩ := ih y hy hne
      exact ⟨c, hc, List.mem_cons_of_mem _ hcm⟩

theorem inUse (hl : t.Linked lev []) (hx : t.InUse x) (h : t.Way x l way) :
    ∀ y ∈ way, t.InUse y ∧ lev y ≤ lev x := by
  induction h with
  | leaf =>
    intro y hy
    obtain rfl := List.mem_singleton.mp hy
    exact ⟨hx, le_refl _⟩
  | down hc _ ih =>
    intro y hy
    obtain ⟨hcu, -, hcl⟩ := hl.child _ _ hc
    rcases List.mem_cons.mp hy with rfl | hy
    · exact ⟨hx, le_refl _⟩
    · obtain ⟨hy1, hy2⟩ := ih hcu y hy
      exact ⟨hy1, by omega⟩

/-- Of the children of a node on the way, only the next node of the way is on it. -/
theorem owner_mem (hl : t.Linked lev []) (hx : t.InUse x) (h : t.Way x l way) {y c : NodeId}
    (hc : c ∈ (t.slot y).children) (hcw : c ∈ way) (hcx : c ≠ x) : y ∈ way := by
  induction h with
  | leaf => exact absurd (List.mem_singleton.mp hcw) hcx
  | @down x d l way hd h ih =>
    have hdu := (hl.child _ _ hd).1
    have hcw' := (List.mem_cons.mp hcw).resolve_left hcx
    by_cases hcd : c = d
    · subst hcd
      rw [hl.owner_unique hc hd]
      exact List.mem_cons_self
    · exact List.mem_cons_of_mem _ (ih hdu hcw' hcd)

end Way

/-- What walks along links rely on. -/
structure Passable (t : Tree α) (lev : NodeId → Nat) : Prop where
  linked : t.Linked lev []
  legible : ∀ x, t.Legible (t.slot x)
  children_ne_nil : ∀ x, t.InUse x → (t.slot x).leaf = false → (t.slot x).children ≠ []

theorem Passable.congr (h : t.Passable lev) (hs : SameLinks t t')
    (hp : ∀ x, (t'.slot x).points = (t.slot x).points) : t'.Passable lev where
  linked := h.linked.congr hs
  legible := fun x => by
    refine ⟨fun p hm => ?_, fun c hc => ?_⟩
    · rw [hs.frame.store]
      exact (h.legible x).points p (hp x ▸ hm)
    · rw [hs.size_arena]
      exact (h.legible x).children c (hs.children x ▸ hc)
  children_ne_nil := fun x hx hl => by
    rw [hs.children]
    exact h.children_ne_nil x ((hs.inUse x).mp hx) (hs.leaf x ▸ hl)

variable [Scalar α]

theorem Shaped.passable {extra : Option NodeId} {loose : List NodeId}
    (h : t.Shaped lev extra none loose) : t.Passable lev :=
  ⟨h.linked, h.legible, fun _ hx hl => h.children_ne_nil hx hl⟩

structure Grown (t t' : Tree α) (p : List α) (way : List NodeId) : Prop where
  nodes : NodesOnly t t'
  slot : ∀ x, t'.slot x =
    if x ∈ way then { t.slot x with bound := (t.slot x).bound.insert p } else t.slot x
  copies : ∀ q, t'.copies q = t.copies q

structure Placed (t t' : Tree α) (id : PointId) (way : List NodeId) (leaf : NodeId) : Prop where
  route : t.Way t.root leaf way
  nodes : NodesOnly t t'
  slot_leaf : t'.slot leaf =
    { t.slot leaf with
      points := (t.slot leaf).points ++ [id]
      bound := ((t.slot leaf).bound.insert (t.coordsAt id)).insert (t.coordsAt id) }
  slot_way : ∀ x ∈ way, x ≠ leaf →
    t'.slot x = { t.slot x with bound := (t.slot x).bound.insert (t.coordsAt id) }
  other : ∀ x, x ∉ way → t'.slot x = t.slot x
  copies : ∀ q, t'.copies q = t.copies q + [id].count q

namespace Placed

variable {id : PointId} {leaf : NodeId}

theorem leaf_inUse (hs : Placed t t' id way leaf) (h : t.Linked lev []) : t.InUse leaf :=
  (hs.route.inUse h h.root leaf hs.route.last_mem).1

theorem slot_eq (hs : Placed t t' id way leaf) (x : NodeId) :
    ∃ b ps, t'.slot x = { t.slot x with bound := b, points := ps } ∧
      (x ≠ leaf → ps = (t.slot x).points) := by
  by_cases hx : x = leaf
  · subst hx
    exact ⟨_, _, hs.slot_leaf, fun hn => absurd rfl hn⟩
  · by_cases hw : x ∈ way
    · exact ⟨_, _, hs.slot_way x hw hx, fun _ => rfl⟩
    · exact ⟨_, _, hs.other x hw, fun _ => rfl⟩

theorem sameLinks (hs : Placed t t' id way leaf) (h : t.Linked lev []) : SameLinks t t' := by
  refine ⟨hs.nodes.frame, hs.nodes.free, hs.nodes.size_arena, fun x => ?_, fun x => ?_,
    fun x => ?_, fun x => ?_, fun x hx => ?_⟩
  all_goals obtain ⟨b, ps, hb, hps⟩ := hs.slot_eq x
  all_goals rw [hb]
  refine hps ?_
  intro heq
  subst heq
  rcases hx with hl | hr
  · rw [hs.route.leaf_eq_true] at hl
    cases hl
  · rw [show (t.slot x).retired = false from hs.leaf_inUse h] at hr
    cases hr

theorem filled (hs : Placed t t' id way leaf) (h : t.Linked lev []) (hf : t.Filled none none) :
    t'.Filled (some leaf) none := by
  have hlinks := hs.sameLinks h
  have hleaf := hs.route.leaf_eq_true
  intro x hx
  have hfx := hf x ((hlinks.inUse x).mp hx)
  by_cases hxl : x = leaf
  · subst hxl
    have hcount : (t'.slot x).entryCount = (t.slot x).entryCount + 1 := by
      rw [hs.slot_leaf]
      simp [Node.entryCount, hleaf]
    have hroom : t'.room (t'.slot x) = t.room (t.slot x) := by
      rw [hs.slot_leaf]
      exact hs.nodes.frame.room rfl rfl
    have hmin : t'.minimumFill (t'.slot x) = t.minimumFill (t.slot x) := by
      rw [hs.slot_leaf]
      exact hs.nodes.frame.minimumFill rfl
    have hup : (t.slot x).entryCount ≤ t.room (t.slot x) := hfx.upper
    refine ⟨by rw [excess_self]; omega, fun hr => ?_, fun _ _ => by omega, ?_⟩
    · have := hfx.lower (hs.nodes.frame.root ▸ hr)
      omega
    · rw [hs.nodes.stats, hs.nodes.frame.config, hs.slot_leaf]
      exact hfx.capacity
  · rw [excess_of_ne hxl]
    obtain ⟨b, ps, hb, hps⟩ := hs.slot_eq x
    have hcount : (t'.slot x).entryCount = (t.slot x).entryCount := by
      rw [hb, hps hxl]
      rfl
    exact hfx.congr hs.nodes.frame.config (by rw [hs.nodes.stats]) (by rw [hs.nodes.frame.root])
      (hlinks.leaf x) hcount (by rw [hb])

theorem registered (hs : Placed t t' id way leaf) (hid : id.index < t.store.size)
    (hnew : t.copies id = 0) (h : t.Registered) : t'.Registered where
  stored := fun q hq => by
    rw [hs.nodes.frame.store]
    by_cases hqi : q = id
    · exact hqi ▸ hid
    · have hz : [id].count q = 0 := by simp [Ne.symm hqi]
      have := hs.copies q
      exact h.stored q (by omega)
  copies_le := fun q => by
    have hc := hs.copies q
    have hle := h.copies_le q
    by_cases hqi : q = id
    · subst hqi
      simp at hc
      omega
    · have hz : [id].count q = 0 := by simp [Ne.symm hqi]
      omega
  finite := fun q hq => by
    rw [hs.nodes.frame.dim, hs.nodes.frame.coordsAt]
    exact h.finite q (hs.nodes.frame.store ▸ hq)

section Bounds

variable [OrderedScalar α] (hs : Placed t t' id way leaf)
  (hp : Rectangle.FinitePoint t.dim (t.coordsAt id))
include hs hp

theorem bound_proper {x : NodeId} (hx : Rectangle.Proper t.dim (t.slot x).bound) :
    Rectangle.Proper t.dim (t'.slot x).bound := by
  by_cases hw : x ∈ way
  · by_cases hxl : x = leaf
    · rw [hxl, hs.slot_leaf]
      simp only [Rectangle.insert_eq_union]
      exact ((hxl ▸ hx).union hp.proper).union hp.proper
    · rw [hs.slot_way x hw hxl]
      simp only [Rectangle.insert_eq_union]
      exact hx.union hp.proper
  · rw [hs.other x hw]
    exact hx

/-- A bound on the way lies in those half-spaces only that the point lies in too. -/
theorem bound_within_iff {x : NodeId} (hx : Rectangle.Proper t.dim (t.slot x).bound)
    {g : HalfSpace α} (hg : g.Valid t.dim) :
    (t'.slot x).bound.Within g ↔
      (t.slot x).bound.Within g ∧ (x ∈ way → (Rectangle.ofPoint (t.coordsAt id)).Within g) := by
  have hone := Rectangle.within_union hx hp.proper hg
  by_cases hw : x ∈ way
  · by_cases hxl : x = leaf
    · subst hxl
      have htwo := Rectangle.within_union (hx.union hp.proper) hp.proper hg
      rw [hs.slot_leaf]
      simp only [Rectangle.insert_eq_union]
      rw [htwo, hone]
      simp only [hw, true_imp_iff, and_assoc, and_self]
    · rw [hs.slot_way x hw hxl]
      simp only [Rectangle.insert_eq_union]
      rw [hone]
      simp only [hw, true_imp_iff]
  · rw [hs.other x hw]
    simp [hw]

end Bounds

theorem fitted [OrderedScalar α] (hs : Placed t t' id way leaf) (hid : id.index < t.store.size)
    (h : t.Shaped lev none none []) : t'.Fitted [] := by
  have hp := h.registered.finite id hid
  have hlinks := hs.sameLinks h.linked
  have hproper := h.fitted.proper
  have hcoords := fun q => hs.nodes.frame.coordsAt q
  refine ⟨fun x hx => ?_, fun x hx _ => ?_⟩
  · rw [hs.nodes.frame.dim]
    exact hs.bound_proper hp (hproper x ((hlinks.inUse x).mp hx))
  have hxu := (hlinks.inUse x).mp hx
  rw [hs.nodes.frame.dim]
  refine ⟨hs.bound_proper hp (hproper x hxu), fun g hg => ?_⟩
  have hold := h.fitted.hull x hxu (by simp)
  rw [hs.bound_within_iff hp (hproper x hxu) hg, hold.within_iff g hg]
  cases hl : (t.slot x).leaf with
  | true =>
    by_cases hxl : x = leaf
    · subst hxl
      have hw := hs.route.last_mem
      simp only [rectsOf, hl, if_true, hs.slot_leaf, hcoords, List.map_append,
        List.map_cons, List.map_nil, List.mem_append, List.mem_singleton, or_imp, forall_and,
        forall_eq, hw, true_imp_iff]
    · have hw : x ∉ way := fun hw => by
        obtain ⟨c, hc, -⟩ := hs.route.exists_child_mem x hw hxl
        rw [(h.linked.oneKind x hxu).leaf hl] at hc
        cases hc
      have hrects : t'.rectsOf (t'.slot x) = t.rectsOf (t.slot x) := by
        rw [hs.other x hw]
        simp only [rectsOf, hl, if_true, hcoords]
      rw [hrects]
      simp [hw]
  | false =>
    have hxl : x ≠ leaf := by
      intro heq
      rw [heq, hs.route.leaf_eq_true] at hl
      cases hl
    simp only [rectsOf, hlinks.leaf, hl, Bool.false_eq_true, if_false, hlinks.children,
      List.forall_mem_map]
    have hkids : (∀ c ∈ (t.slot x).children, (t'.slot c).bound.Within g) ↔
        (∀ c ∈ (t.slot x).children, (t.slot c).bound.Within g) ∧
          ∀ c ∈ (t.slot x).children, c ∈ way →
            (Rectangle.ofPoint (t.coordsAt id)).Within g := by
      rw [← forall₂_and]
      apply forall₂_congr
      intro c hc
      exact hs.bound_within_iff hp (hproper c (h.linked.child x c hc).1) hg
    rw [hkids]
    apply and_congr_right
    intro _
    constructor
    · intro hw c hc hcw
      exact hw (hs.route.owner_mem h.linked h.linked.root hc hcw (h.linked.ne_root hc))
    · intro hk hw
      obtain ⟨c, hc, hcw⟩ := hs.route.exists_child_mem x hw hxl
      exact hk c hc hcw

/-- Adding a point leaves at most its leaf overfull. -/
theorem shaped [OrderedScalar α] (hs : Placed t t' id way leaf) (hid : id.index < t.store.size)
    (hnew : t.copies id = 0) (h : t.Shaped lev none none []) :
    t'.Shaped lev (some leaf) none [] where
  feasible := hs.nodes.frame.config ▸ h.feasible
  linked := h.linked.congr (hs.sameLinks h.linked)
  filled := hs.filled h.linked h.filled
  fitted := hs.fitted hid h
  registered := hs.registered hid hnew h.registered

end Placed

end Tree

namespace DescentRule

variable [Scalar α]

/-- Some child is always chosen. -/
theorem choose_lt (rule : DescentRule) (aboveLeaves : Bool) {bounds : List (Rectangle α)}
    (p : List α) (h : bounds ≠ []) : rule.choose aboveLeaves bounds p < bounds.length := by
  unfold choose
  rcases List.mem_cons.mp (champion_mem (fun a b : DescentCost α × Nat => a.1.below b.1)
    (DescentCost.highest, 0)
    (bounds.zipIdx.map fun x => (rule.cost aboveLeaves bounds p x.1 x.2, x.2))) with hd | hm
  · rw [hd]
    exact List.length_pos_of_ne_nil h
  · obtain ⟨⟨r, i⟩, hz, heq⟩ := List.mem_map.mp hm
    rw [← heq]
    exact (List.getElem?_eq_some_iff.mp (List.mk_mem_zipIdx_iff_getElem?.mp hz)).1

end DescentRule

namespace TreeM

open RTree.Tree

variable [Scalar α] {t : Tree α} {lev : NodeId → Nat}

/-- The first child tells whether the children are leaves. -/
theorem childFor_eq (rule : DescentRule) (p : List α) {n : Node α} (hl : t.Legible n)
    {c : NodeId} {cs : List NodeId} (hcs : n.children = c :: cs) :
    t.childFor rule n p =
      .ok (rule.choose (t.slot c).leaf (n.children.map fun c => (t.slot c).bound) p) := by
  have habove : t.aboveLeaves n = .ok (t.slot c).leaf := by
    unfold aboveLeaves
    simp only [hcs]
    rw [bind_of_ok (node_eq (hl.children c (by simp [hcs])))]
    rfl
  unfold childFor
  rw [bind_of_ok habove, bind_of_ok (childBounds_ok hl.children)]
  rfl

theorem childFor_ok (rule : DescentRule) (p : List α) {n : Node α}
    (hl : t.Legible n) (hne : n.children ≠ []) :
    ∃ place, t.childFor rule n p = .ok place ∧ place < n.children.length := by
  obtain ⟨c, cs, hcs⟩ := List.exists_cons_of_ne_nil hne
  have hb : n.children.map (fun c => (t.slot c).bound) ≠ [] := by simpa using hne
  have hlt := rule.choose_lt (t.slot c).leaf p hb
  exact ⟨_, childFor_eq rule p hl hcs, by simpa using hlt⟩

/-- From any node in use a descent finds a leaf, within as many steps as there are levels. -/
theorem descendFrom_ok (rule : DescentRule) (p : List α) {limit : Nat} {id : NodeId}
    (h : t.Passable lev) (hid : t.InUse id) (hlim : lev id < limit) :
    ∃ leaf way t', (descendFrom rule p limit id).run t = .ok leaf t' ∧
      t.Way id leaf way ∧ Grown t t' p way := by
  induction limit generalizing t id with
  | zero => omega
  | succ limit ih =>
    let t₁ := t.updateNode id fun n => { n with bound := n.bound.insert p }
    have hs₁ : t₁.slot = Function.update t.slot id
        { t.slot id with bound := (t.slot id).bound.insert p } := slot_updateNode hid.lt _
    have hlinks : SameLinks t t₁ := sameLinks_updateNode hid rfl rfl rfl rfl fun _ => rfl
    have hid₁ : t₁.InUse id := (hlinks.inUse id).mpr hid
    have hnode : t₁.slot id = { t.slot id with bound := (t.slot id).bound.insert p } := by
      rw [hs₁, Function.update_self]
    have hpts : ∀ x, (t₁.slot x).points = (t.slot x).points := by
      intro x
      rw [hs₁]
      by_cases hx : x = id
      · subst hx
        simp
      · simp [hx]
    have h₁ : t₁.Passable lev := h.congr hlinks hpts
    have hcopies : ∀ q, t₁.copies q = t.copies q := copies_updateNode_of_eq hid.lt rfl
    cases hl : (t.slot id).leaf with
    | true =>
      refine ⟨id, [id], t₁, ?_, .leaf hl, nodesOnly_updateNode _ _ _, fun x => ?_, hcopies⟩
      · unfold descendFrom
        rw [bind_ok (modifyNode_ok hid.lt _), bind_ok (getNode_ok hid₁.lt), hnode]
        simp only [hl, if_true]
        rfl
      · rw [hs₁]
        by_cases hx : x = id
        · subst hx
          simp
        · simp [hx]
    | false =>
      have hne : (t₁.slot id).children ≠ [] := by
        rw [hnode]
        exact h.children_ne_nil id hid hl
      obtain ⟨place, hplace, hlt⟩ := childFor_ok rule p (h₁.legible id) hne
      have hget : (t₁.slot id).children[place]? = some (t₁.slot id).children[place] :=
        List.getElem?_eq_getElem hlt
      have hc₁ : (t₁.slot id).children[place] ∈ (t₁.slot id).children := List.getElem_mem hlt
      obtain ⟨hcu, -, hcl⟩ := h₁.linked.child id _ hc₁
      obtain ⟨leaf, way, t', hrun, hway, hgrown⟩ := ih h₁ hcu (by omega)
      have hidw : id ∉ way := fun hm => by
        have := (hway.inUse h₁.linked hcu id hm).2
        omega
      have hc : (t₁.slot id).children[place] ∈ (t.slot id).children := hlinks.children id ▸ hc₁
      have hway₀ : t.Way (t₁.slot id).children[place] leaf way :=
        hway.congr (fun y => (hlinks.leaf y).symm) fun y => (hlinks.children y).symm
      refine ⟨leaf, id :: way, t', ?_, .down hc hway₀,
        (nodesOnly_updateNode _ _ _).trans hgrown.nodes, fun x => ?_,
        fun q => (hgrown.copies q).trans (hcopies q)⟩
      · have hl₁ : (t₁.slot id).leaf = false := by
          rw [hnode]
          exact hl
        unfold descendFrom
        rw [bind_ok (modifyNode_ok hid.lt _), bind_ok (getNode_ok hid₁.lt)]
        simp only [hl₁, Bool.false_eq_true, if_false, List.isEmpty_iff, hne]
        rw [bind_ok (query_ok hplace)]
        simp only [hget]
        exact hrun
      · rw [hgrown.slot, hs₁]
        by_cases hx : x = id
        · subst hx
          simp [hidw]
        · simp [hx]

theorem placed_ok {id : PointId} {leaf : NodeId} {way : List NodeId} {t₁ : Tree α}
    (hw : t.Way t.root leaf way) (hg : Grown t t₁ (t.coordsAt id) way)
    (hl : leaf.index < t.arena.size) :
    (modifyNode leaf (·.addPoint id (t.coordsAt id))).run t₁ =
        .ok () (t₁.updateNode leaf (·.addPoint id (t.coordsAt id))) ∧
      Placed t (t₁.updateNode leaf (·.addPoint id (t.coordsAt id))) id way leaf := by
  have hl₁ : leaf.index < t₁.arena.size := hg.nodes.size_arena ▸ hl
  have hs := slot_updateNode hl₁ (·.addPoint id (t.coordsAt id))
  refine ⟨modifyNode_ok hl₁ _, hw, hg.nodes.trans (nodesOnly_updateNode _ _ _), ?_,
    fun x hx hxl => ?_, fun x hx => ?_, fun q => ?_⟩
  · rw [hs, Function.update_self, hg.slot, if_pos hw.last_mem]
    rfl
  · rw [hs, Function.update_of_ne hxl, hg.slot, if_pos hx]
  · have hxl : x ≠ leaf := fun he => hx (he ▸ hw.last_mem)
    rw [hs, Function.update_of_ne hxl, hg.slot, if_neg hx]
  · have h1 := copies_updateNode hl₁ (·.addPoint id (t.coordsAt id)) q
    have h2 : ((t₁.slot leaf).addPoint id (t.coordsAt id)).points = (t₁.slot leaf).points ++ [id] :=
      rfl
    rw [h2, List.count_append, hg.copies] at h1
    omega

end TreeM

end RTree
