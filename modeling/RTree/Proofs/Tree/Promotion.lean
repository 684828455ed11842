import RTree.Proofs.Tree.Inheritance
import Mathlib.Algebra.Group.Nat.Defs

namespace RTree

variable {α : Type} [Scalar α]

namespace Tree

/-- The root lists the new node `copy` alone, and its children have that as their parent. The copy
is still empty. -/
structure Rehung (t t' : Tree α) (copy : NodeId) : Prop where
  frame : SameFrame t t'
  stats : t'.stats = t.stats
  tidy : t'.Tidy
  free : t'.free = t.free.tail
  le_size : t.arena.size ≤ t'.arena.size
  idle : ¬ t.InUse copy
  copy_lt : copy.index < t'.arena.size
  slot_root : t'.slot t.root =
    { t.slot t.root with
      leaf := false, points := [], children := [copy], capacity := t.config.maxChildren }
  slot_copy : t'.slot copy =
    Node.new (t.slot t.root).leaf t.dim (some t.root) (t.slot t.root).capacity
  moved : ∀ c ∈ (t.slot t.root).children, t'.slot c = (t.slot c).withParent copy
  other : ∀ x, x ≠ copy → x ≠ t.root → x ∉ (t.slot t.root).children → t'.slot x = t.slot x
  copies : ∀ p, t'.copies p + (t.slot t.root).points.count p = t.copies p

/-- The contents of the root have moved into the new node `copy`. -/
structure PushedDown (t t' : Tree α) (copy : NodeId) : Prop where
  frame : SameFrame t t'
  stats : t'.stats = { t.stats with rootPromotions := t.stats.rootPromotions + 1 }
  tidy : t'.Tidy
  free : t'.free = t.free.tail
  le_size : t.arena.size ≤ t'.arena.size
  idle : ¬ t.InUse copy
  slot_root : t'.slot t.root =
    { t.slot t.root with
      leaf := false, points := [], children := [copy], capacity := t.config.maxChildren }
  slot_copy : t'.slot copy = (t.slot t.root).withParent t.root
  moved : ∀ c ∈ (t.slot t.root).children, t'.slot c = (t.slot c).withParent copy
  other : ∀ x, x ≠ copy → x ≠ t.root → x ∉ (t.slot t.root).children → t'.slot x = t.slot x
  copies : ∀ p, t'.copies p = t.copies p

/-- The root has taken over the children of its only child `id`. -/
structure Absorbed (t t' : Tree α) (id : NodeId) : Prop where
  frame : SameFrame t t'
  stats : t'.stats =
    { t.stats with
      rootAbsorptions := t.stats.rootAbsorptions + 1
      supernodeGrowths := t.stats.supernodeGrowths + 1 }
  tidy : t'.Tidy
  free : t'.free = id :: t.free
  size_arena : t'.arena.size = t.arena.size
  slot_id : t'.slot id = (t.slot id).retire
  slot_root : ∃ k capacity, capacity = 2 * (t.slot t.root).capacity * 2 ^ k ∧
    (t.slot id).children.length ≤ capacity ∧
    (0 < k → capacity < 2 * (t.slot id).children.length) ∧
    t'.slot t.root =
      { t.slot t.root with
        capacity
        children := (t.slot id).children
        history := (t.slot id).history
        bound := t.hullOf (t.slot id) }
  moved : ∀ c ∈ (t.slot id).children, t'.slot c = (t.slot c).withParent t.root
  other : ∀ x, x ≠ id → x ≠ t.root → x ∉ (t.slot id).children → t'.slot x = t.slot x
  copies : ∀ p, t'.copies p = t.copies p

section Promotion

variable {t t₁ t' : Tree α} {lev : NodeId → Nat} {copy : NodeId}

theorem Allocated.rehung
    (h : t.Allocated t₁ copy
      (Node.new (t.slot t.root).leaf t.dim (some t.root) (t.slot t.root).capacity))
    (hl : t.Linked lev [])
    (ha : Adopted
      (t₁.updateNode t.root fun n =>
        { n with
          leaf := false, points := [], children := [copy], capacity := t₁.config.maxChildren })
      t' copy (t.slot t.root).children) : Rehung t t' copy := by
  let t₂ := t₁.updateNode t.root fun n =>
    { n with leaf := false, points := [], children := [copy], capacity := t₁.config.maxChildren }
  have hchild : ∀ c ∈ (t.slot t.root).children, t.InUse c := fun c hc => (hl.child _ c hc).1
  have hslot₁ : t₁.slot t.root = t.slot t.root := h.slot_of_inUse hl.root
  have hroot₁ : t₁.InUse t.root := hl.root.congr hslot₁
  have hs₂ : ∀ x, x ≠ t.root → t₂.slot x = t₁.slot x := fun x hx => by
    rw [slot_updateNode hroot₁.lt, Function.update_of_ne hx]
  have hs₂_child : ∀ c ∈ (t.slot t.root).children, t₂.slot c = t.slot c := fun c hc => by
    rw [hs₂ c (hl.ne_root hc), h.slot_of_inUse (hchild c hc)]
  have hsize : t'.arena.size = t₁.arena.size :=
    ha.nodes.size_arena.trans (t₁.size_arena_updateNode t.root _)
  have htidy₂ : t₂.Tidy := h.tidy.updateNode hroot₁ hroot₁
  refine
    { frame := h.frame.trans ((nodesOnly_updateNode t₁ t.root _).trans ha.nodes).frame
      stats := ha.nodes.stats.trans h.stats
      tidy := htidy₂.adopt ha fun c hc => (hchild c hc).congr (hs₂_child c hc)
      free := ha.nodes.free.trans h.free, le_size := hsize ▸ h.le_size, idle := h.idle
      copy_lt := hsize ▸ (h.lt_iff copy).mpr (.inr rfl)
      slot_root := ?_, slot_copy := ?_, moved := fun c hc => ?_, other := fun x hxc hxr hx => ?_
      copies := fun p => ?_ }
  · rw [ha.slot, if_neg (hl.root_unlisted t.root), slot_updateNode hroot₁.lt, Function.update_self,
      hslot₁, h.frame.config]
  · rw [ha.slot, if_neg fun hc => h.ne (hchild copy hc) rfl, hs₂ copy (h.ne hl.root).symm, h.slot,
      Function.update_self]
  · rw [ha.slot, if_pos hc, hs₂_child c hc]
  · rw [ha.slot, if_neg hx, hs₂ x hxr, h.slot, Function.update_of_ne hxc]
  · have hcopies : t₂.copies p + (t₁.slot t.root).points.count p = t₁.copies p :=
      copies_updateNode hroot₁.lt _ p
    rw [ha.copies, ← h.copies, ← hcopies, hslot₁]

/-- The copy gets the contents that the root had. -/
theorem Rehung.pushedDown (h : Rehung t t₁ copy) (hl : t.Linked lev []) :
    PushedDown t
      ((t₁.updateNode copy fun n =>
        { n with
          points := (t.slot t.root).points, children := (t.slot t.root).children
          bound := (t.slot t.root).bound, history := (t.slot t.root).history }).updateStats
        fun s => { s with rootPromotions := s.rootPromotions + 1 }) copy := by
  let t₂ := t₁.updateNode copy fun n =>
    { n with
      points := (t.slot t.root).points, children := (t.slot t.root).children
      bound := (t.slot t.root).bound, history := (t.slot t.root).history }
  have hs₂ : t₂.slot = Function.update t₁.slot copy ((t.slot t.root).withParent t.root) := by
    have hold : (t.slot t.root).retired = false := hl.root
    rw [slot_updateNode h.copy_lt, h.slot_copy]
    simp [Node.withParent, Node.new, hold]
  have hs₂_of_ne : ∀ x, x ≠ copy → t₂.slot x = t₁.slot x := fun x hx => by
    rw [hs₂, Function.update_of_ne hx]
  have hne : ∀ {x}, t.InUse x → x ≠ copy := fun hx he => h.idle (he ▸ hx)
  have hcopy : t₁.InUse copy := by
    unfold InUse
    rw [h.slot_copy]
    rfl
  have htidy₂ : t₂.Tidy := h.tidy.updateNode hcopy hcopy
  refine
    { frame := h.frame.trans ((nodesOnly_updateNode t₁ copy _).frame.trans
        (sameFrame_updateStats t₂ _))
      stats := ?_, tidy := htidy₂.updateStats _, free := h.free
      le_size := h.le_size.trans (t₁.size_arena_updateNode copy _).symm.le, idle := h.idle
      slot_root := (hs₂_of_ne _ (hne hl.root)).trans h.slot_root
      slot_copy := (congrFun hs₂ copy).trans (Function.update_self ..)
      moved := fun c hc => (hs₂_of_ne c (hne (hl.child _ c hc).1)).trans (h.moved c hc)
      other := fun x hxc hxr hx => (hs₂_of_ne x hxc).trans (h.other x hxc hxr hx)
      copies := fun p => ?_ }
  · change { t₁.stats with rootPromotions := t₁.stats.rootPromotions + 1 } = _
    rw [h.stats]
  · have hcopies : t₂.copies p + (t₁.slot copy).points.count p =
        t₁.copies p + (t.slot t.root).points.count p := copies_updateNode h.copy_lt _ p
    rw [h.slot_copy, h.copies] at hcopies
    exact hcopies

end Promotion

theorem TakenOver.absorbed {t t' : Tree α} {id : NodeId} {k capacity : Nat}
    (h : TakenOver t t' id
      { t.slot t.root with
        capacity
        children := (t.slot id).children
        history := (t.slot id).history
        bound := t.hullOf (t.slot id) }
      (t.slot id).children)
    (hpoints : (t.slot id).points = [])
    (hcapacity : capacity = 2 * (t.slot t.root).capacity * 2 ^ k)
    (hneed : (t.slot id).children.length ≤ capacity)
    (hk : 0 < k → capacity < 2 * (t.slot id).children.length) :
    Absorbed t
      ((t'.updateStats fun s => { s with rootAbsorptions := s.rootAbsorptions + 1 }).updateStats
        fun s => { s with supernodeGrowths := s.supernodeGrowths + 1 }) id where
  frame := h.frame.trans ((sameFrame_updateStats t' _).trans (sameFrame_updateStats _ _))
  stats := by
    change { t'.stats with
      rootAbsorptions := t'.stats.rootAbsorptions + 1
      supernodeGrowths := t'.stats.supernodeGrowths + 1 } = _
    rw [h.stats]
  tidy := (h.tidy.updateStats _).updateStats _
  free := h.free
  size_arena := h.size_arena
  slot_id := h.slot_id
  slot_root := ⟨k, capacity, hcapacity, hneed, hk, h.slot_root⟩
  moved := h.moved
  other := h.other
  copies q := by
    have hcopies := h.copies q
    rw [hpoints, List.count_nil, Nat.add_zero] at hcopies
    exact Nat.add_right_cancel hcopies

def widenNode (t : Tree α) (id : NodeId) : Tree α :=
  (t.updateNode id fun n => { n with capacity := 2 * n.capacity }).updateStats fun s =>
    { s with supernodeGrowths := s.supernodeGrowths + 1 }

end Tree

namespace TreeM

open RTree.Tree

variable {t : Tree α} {lev : NodeId → Nat}

omit [Scalar α] in
/-- Doubling ends: the capacity found is enough, and no more doublings are made than needed. -/
theorem doubledCapacity_ok {needed limit capacity : Nat} (hc : 0 < capacity) (hpos : 0 < limit)
    (hl : needed < limit + capacity) :
    ∃ k found, doubledCapacity (α := α) needed limit capacity = .ok found ∧
      found = capacity * 2 ^ k ∧ needed ≤ found ∧ (0 < k → found < 2 * needed) := by
  induction limit generalizing capacity with
  | zero => omega
  | succ limit ih =>
    unfold doubledCapacity
    split
    · rename_i hlt
      obtain ⟨k, found, hrun, hfound, hle, hk⟩ := ih (by omega) (by omega)
        (by omega : needed < limit + 2 * capacity)
      refine ⟨k + 1, found, hrun, ?_, hle, fun _ => ?_⟩
      · rw [hfound, Nat.pow_succ, Nat.mul_comm 2 capacity, Nat.mul_assoc, Nat.mul_comm 2]
      · rcases Nat.eq_zero_or_pos k with h0 | h0
        · subst h0
          omega
        · exact hk h0
    · exact ⟨0, capacity, rfl, by simp, by omega, fun h => by omega⟩

theorem pushDownRoot_ok (h : t.Linked lev []) :
    ∃ copy t', pushDownRoot.run t = .ok copy t' ∧ PushedDown t t' copy := by
  obtain ⟨copy, t₁, hrun₁, h₁⟩ :=
    allocate_ok h.tidy (t.slot t.root).leaf (some t.root) (t.slot t.root).capacity
  have hslot₁ : t₁.slot t.root = t.slot t.root := h₁.slot_of_inUse h.root
  have hroot₁ : t.root.index < t₁.arena.size := (h.root.congr hslot₁).lt
  let t₂ := t₁.updateNode t.root fun n =>
    { n with leaf := false, points := [], children := [copy], capacity := t₁.config.maxChildren }
  have hsize : t.arena.size ≤ t₂.arena.size :=
    h₁.le_size.trans (t₁.size_arena_updateNode t.root _).symm.le
  obtain ⟨t₃, hrun₃, h₃⟩ := adopt_ok (t := t₂) copy fun c hc =>
    lt_of_lt_of_le (h.child t.root c hc).1.lt hsize
  have hrehung : Rehung t t₃ copy := h₁.rehung h h₃
  refine ⟨copy, _, ?_, hrehung.pushedDown h⟩
  unfold pushDownRoot
  rw [get_bind, bind_ok (getNode_ok h.root.lt), bind_ok hrun₁, bind_ok (getNode_ok hroot₁),
    get_bind, hslot₁, bind_ok (modifyNode_ok hroot₁ _), bind_ok hrun₃,
    bind_ok (modifyNode_ok hrehung.copy_lt _)]
  rfl

omit [Scalar α] in
theorem isOnlyChild_ok {parent : NodeId} (hp : parent.index < t.arena.size) :
    t.isOnlyChild parent =
      .ok (decide (parent = t.root) && (t.slot parent).children.length == 1) := by
  unfold isOnlyChild
  by_cases hr : parent = t.root
  · rw [if_pos hr, bind_of_ok (node_eq hp), decide_eq_true hr, Bool.true_and]
    rfl
  · rw [if_neg hr, decide_eq_false hr, Bool.false_and]
    rfl

theorem makeSupernode_widen {id parent : NodeId} (h : t.Linked lev [])
    (hm : id ∈ (t.slot parent).children) (honly : (t.slot t.root).children ≠ [id]) :
    (makeSupernode id).run t = .ok () (t.widenNode id) := by
  obtain ⟨hid, hpar, -⟩ := h.child parent id hm
  have hparent := h.inUse_of_mem_children hm
  have hfalse : (decide (parent = t.root) && (t.slot parent).children.length == 1) = false := by
    by_contra hcon
    obtain ⟨hroot, hone⟩ : parent = t.root ∧ (t.slot parent).children.length = 1 := by
      simpa using hcon
    obtain ⟨c, hc⟩ := List.length_eq_one_iff.mp hone
    obtain rfl : id = c := by simpa [hc] using hm
    exact honly (hroot ▸ hc)
  unfold makeSupernode
  rw [bind_ok (getNode_ok hid.lt)]
  simp only [hpar]
  rw [bind_ok (query_ok (isOnlyChild_ok hparent.lt)), hfalse]
  simp only [Bool.false_eq_true, if_false]
  rw [bind_ok (modifyNode_ok hid.lt _)]
  rfl

/-- The root takes over the children of its only child; one growth is still to be counted. -/
theorem absorbIntoRoot_ok {id : NodeId} (h : t.Linked lev [])
    (hm : (t.slot t.root).children = [id]) (hleaf : (t.slot id).leaf = false)
    (hcap : 0 < (t.slot t.root).capacity) :
    ∃ t', (absorbIntoRoot id t.root).run t = .ok () t' ∧
      Absorbed t (t'.updateStats fun s => { s with supernodeGrowths := s.supernodeGrowths + 1 })
        id := by
  have hmem : id ∈ (t.slot t.root).children := by simp [hm]
  have hid := (h.child t.root id hmem).1
  have hunlisted := h.root_unlisted id
  have hrleaf := h.leaf_false_of_mem_children hmem
  have hpoints : (t.slot id).points = [] := (h.oneKind id hid).directory hleaf
  have hrpoints : (t.slot t.root).points = [] := (h.oneKind t.root h.root).directory hrleaf
  have hused : (t.slot t.root).retired = false := h.root
  let needed := (t.slot id).children.length
  obtain ⟨k, capacity, hdoubled, hcapacity, hneed, hk⟩ : ∃ k found,
      doubledCapacity (α := α) needed (needed + 1) (2 * (t.slot t.root).capacity) = .ok found ∧
        found = 2 * (t.slot t.root).capacity * 2 ^ k ∧ needed ≤ found ∧
        (0 < k → found < 2 * needed) :=
    doubledCapacity_ok (Nat.mul_pos Nat.two_pos hcap) (Nat.succ_pos _) (by omega)
  -- the child goes out of use, and the root gets its children
  let t₁ := t.updateNode id fun n => { n with children := [] }
  let t₂ := t.retireNode id
  have ht₂ : t₁.retireNode id = t₂ := t.retireNode_updateNode id fun n => rfl
  have hs₂ : TakenOver t t₂ id (t.slot t.root) [] := .retireNode h hmem
  let takeChildren : Node α → Node α := fun n =>
    { n with capacity, children := (t.slot id).children, history := (t.slot id).history }
  have hs₃ := hs₂.updateRoot h hmem (by simp) hused (f := takeChildren) hused
  obtain ⟨t₄, hrun₄, hs₄⟩ := hs₃.adopt h
  -- its bound is that of the child
  have hroot₄ := hs₄.inUse_root hused
  have hhull : t₄.hullOf (t₄.slot t.root) = t.hullOf (t.slot id) := by
    rw [hs₄.slot_root]
    exact hs₄.hullOf hleaf hrleaf rfl
  have hlegible : t₄.Legible (t₄.slot t.root) := by
    rw [hs₄.slot_root]
    constructor
    · intro q hq
      have hnone : (takeChildren (t.slot t.root)).points = [] := hrpoints
      rw [hnone] at hq
      cases hq
    · intro c hc
      rw [hs₄.size_arena]
      exact (h.child id c hc).1.lt
  let t₅ := t₄.updateNode t.root fun n => { n with bound := t₄.hullOf (t₄.slot t.root) }
  have hs₅ : TakenOver t t₅ id
      { takeChildren (t.slot t.root) with bound := t₄.hullOf (t₄.slot t.root) }
      (t.slot id).children :=
    hs₄.updateRoot h hmem hunlisted hused
      (f := fun n => { n with bound := t₄.hullOf (t₄.slot t.root) }) hused
  rw [hhull] at hs₅
  refine ⟨_, ?_, hs₅.absorbed hpoints hcapacity hneed hk⟩
  have hid₁ : id.index < t₁.arena.size := (t.size_arena_updateNode id _).symm ▸ hid.lt
  have hroot₂ := hs₂.inUse_root hused
  unfold absorbIntoRoot
  rw [bind_ok (getNode_ok hid.lt), bind_ok (modifyNode_ok hid.lt _), bind_ok (retire_ok hid₁),
    ht₂, bind_ok (getNode_ok hroot₂.lt), hs₂.slot_root, bind_ok (query_ok hdoubled),
    bind_ok (modifyNode_ok hroot₂.lt _), bind_ok hrun₄, bind_ok (tighten_ok hroot₄.lt hlegible)]
  rfl

theorem makeSupernode_absorb {id : NodeId} (h : t.Linked lev [])
    (hm : (t.slot t.root).children = [id]) (hleaf : (t.slot id).leaf = false)
    (hcap : 0 < (t.slot t.root).capacity) :
    ∃ t', (makeSupernode id).run t = .ok () t' ∧ Absorbed t t' id := by
  obtain ⟨hid, hpar, -⟩ := h.child t.root id (by simp [hm])
  obtain ⟨t₁, hrun, habsorbed⟩ := absorbIntoRoot_ok h hm hleaf hcap
  refine ⟨_, ?_, habsorbed⟩
  unfold makeSupernode
  rw [bind_ok (getNode_ok hid.lt)]
  simp only [hpar]
  rw [bind_ok (query_ok (isOnlyChild_ok h.root.lt))]
  simp only [hm, decide_true, List.length_singleton, beq_self_eq_true, Bool.and_self, if_true]
  rw [bind_ok hrun]
  rfl

end TreeM

end RTree
