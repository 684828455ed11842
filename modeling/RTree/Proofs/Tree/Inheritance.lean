import RTree.Proofs.Tree.Moves
import RTree.Proofs.Tree.Shape

namespace RTree

variable {α : Type}

namespace Tree

/-- The root has the entries of its former only child, which is out of use. -/
structure Inherited [Scalar α] (t t' : Tree α) (id : NodeId) : Prop where
  frame : SameFrame t t'
  tidy : t'.Tidy
  slot_id : t'.slot id = (t.slot id).retire
  leaf : (t'.slot t.root).leaf = (t.slot id).leaf
  points : (t'.slot t.root).points = (t.slot id).points
  children : (t'.slot t.root).children = (t.slot id).children
  parent : (t'.slot t.root).parent = (t.slot t.root).parent
  retired : (t'.slot t.root).retired = (t.slot t.root).retired
  moved : ∀ c ∈ (t.slot id).children, t'.slot c = (t.slot c).withParent t.root
  other : ∀ x, x ≠ id → x ≠ t.root → x ∉ (t.slot id).children → t'.slot x = t.slot x

namespace Inherited

variable {t t' : Tree α} {lev : NodeId → Nat} {id : NodeId}

def levels (lev : NodeId → Nat) (root id : NodeId) : NodeId → Nat :=
  fun x => if x = root then lev id else lev x

theorem levels_of_ne (lev : NodeId → Nat) {root x : NodeId} (hx : x ≠ root) :
    levels lev root id x = lev x := by simp [levels, hx]

theorem levels_root (lev : NodeId → Nat) (root : NodeId) :
    levels lev root id root = lev id := by simp [levels]

variable [Scalar α] (hs : Inherited t t' id)
include hs

/-- All other nodes keep everything but their parent. -/
theorem other_eq {x : NodeId} (hi : x ≠ id) (hr : x ≠ t.root) :
    ∃ q, t'.slot x = { t.slot x with parent := q } := by
  by_cases hm : x ∈ (t.slot id).children
  · exact ⟨some t.root, hs.moved x hm⟩
  · exact ⟨(t.slot x).parent, hs.other x hi hr hm⟩

theorem inUse_iff (x : NodeId) : t'.InUse x ↔ t.InUse x ∧ x ≠ id := by
  unfold InUse
  by_cases hi : x = id
  · subst hi
    simp [hs.slot_id, Node.retire]
  by_cases hr : x = t.root
  · subst hr
    simp [hs.retired, hi]
  · obtain ⟨q, hq⟩ := hs.other_eq hi hr
    simp [hq, hi]

theorem child (h : t.Linked lev []) (hm : (t.slot t.root).children = [id]) {x c : NodeId}
    (hc : c ∈ (t'.slot x).children) : t'.InUse c ∧ (t'.slot c).parent = some x ∧
      levels lev t.root id c + 1 = levels lev t.root id x := by
  have hmem : id ∈ (t.slot t.root).children := by simp [hm]
  by_cases hr : x = t.root
  · rw [hr] at hc ⊢
    rw [hs.children] at hc
    obtain ⟨hcu, -, hcl⟩ := h.child id c hc
    refine ⟨(hs.inUse_iff c).mpr ⟨hcu, h.child_ne hc⟩, ?_, ?_⟩
    · rw [hs.moved c hc]
      rfl
    · rw [levels_of_ne lev (h.ne_root hc), levels_root, hcl]
  by_cases hi : x = id
  · rw [hi, hs.slot_id] at hc
    cases hc
  · obtain ⟨q, hq⟩ := hs.other_eq hi hr
    rw [hq] at hc
    obtain ⟨hcu, hcp, hcl⟩ := h.child x c hc
    have hci : c ≠ id := by
      intro heq
      subst heq
      exact hr (h.owner_unique hc hmem)
    have hcr : c ≠ t.root := h.ne_root hc
    have hcn : c ∉ (t.slot id).children := by
      intro hc'
      exact hi (h.owner_unique hc hc')
    refine ⟨(hs.inUse_iff c).mpr ⟨hcu, hci⟩, ?_, ?_⟩
    · rw [hs.other c hci hcr hcn]
      exact hcp
    · rw [levels_of_ne lev hcr, levels_of_ne lev hr]
      exact hcl

theorem owner (h : t.Linked lev []) (hm : (t.slot t.root).children = [id]) {x : NodeId}
    (hx : t'.InUse x) (hr : x ≠ t.root) : ∃ y, x ∈ (t'.slot y).children := by
  obtain ⟨hxu, hxi⟩ := (hs.inUse_iff x).mp hx
  obtain ⟨y, hy⟩ := h.owner x hxu hr (by simp)
  by_cases hyr : y = t.root
  · rw [hyr, hm, List.mem_singleton] at hy
    exact absurd hy hxi
  by_cases hyi : y = id
  · refine ⟨t.root, ?_⟩
    rw [hs.children, ← hyi]
    exact hy
  · obtain ⟨q, hq⟩ := hs.other_eq hyi hyr
    refine ⟨y, ?_⟩
    rw [hq]
    exact hy

theorem le_root (h : t.Linked lev []) (hm : (t.slot t.root).children = [id]) {x : NodeId}
    (hx : t'.InUse x) : levels lev t.root id x ≤ lev id := by
  obtain ⟨hxu, hxi⟩ := (hs.inUse_iff x).mp hx
  by_cases hr : x = t.root
  · rw [hr, levels_root]
  · rw [levels_of_ne lev hr]
    obtain ⟨y, hy⟩ := h.owner x hxu hr (by simp)
    have hyr : y ≠ t.root := by
      intro heq
      subst heq
      rw [hm, List.mem_singleton] at hy
      exact hxi hy
    have h1 := (h.child y x hy).2.2
    have h2 := (h.child t.root id (by simp [hm])).2.2
    have h3 := h.le_root y (h.inUse_of_mem_children hy)
    omega

theorem linked (h : t.Linked lev []) (hm : (t.slot t.root).children = [id]) :
    t'.Linked (levels lev t.root id) [] := by
  have hmem : id ∈ (t.slot t.root).children := by simp [hm]
  have hid := (h.child _ id hmem).1
  have hne : t.root ≠ id := (h.ne_root hmem).symm
  refine
    { tidy := hs.tidy
      root := ?_, root_parent := ?_, oneKind := ?_, leaf_iff := ?_, nodup := ?_
      child := fun x c hc => hs.child h hm hc
      owner := fun x hx hr _ => hs.owner h hm hx (hs.frame.root ▸ hr)
      le_root := ?_, floating := by simp, nodup_floating := List.nodup_nil }
  · rw [hs.frame.root]
    exact (hs.inUse_iff _).mpr ⟨h.root, hne⟩
  · rw [hs.frame.root, hs.parent]
    exact h.root_parent
  · intro x hx
    obtain ⟨hxu, hxi⟩ := (hs.inUse_iff x).mp hx
    by_cases hr : x = t.root
    · have hk := h.oneKind id hid
      rw [hr]
      constructor
      · rw [hs.leaf, hs.children]
        exact hk.leaf
      · rw [hs.leaf, hs.points]
        exact hk.directory
    · obtain ⟨q, hq⟩ := hs.other_eq hxi hr
      rw [hq]
      exact ⟨(h.oneKind x hxu).leaf, (h.oneKind x hxu).directory⟩
  · intro x hx
    obtain ⟨hxu, hxi⟩ := (hs.inUse_iff x).mp hx
    by_cases hr : x = t.root
    · rw [hr, hs.leaf, levels_root]
      exact h.leaf_iff id hid
    · obtain ⟨q, hq⟩ := hs.other_eq hxi hr
      rw [hq, levels_of_ne lev hr]
      exact h.leaf_iff x hxu
  · intro x
    by_cases hr : x = t.root
    · rw [hr, hs.children]
      exact h.nodup id
    by_cases hi : x = id
    · rw [hi, hs.slot_id]
      exact List.nodup_nil
    · obtain ⟨q, hq⟩ := hs.other_eq hi hr
      rw [hq]
      exact h.nodup x
  · intro x hx
    rw [hs.frame.root, levels_root]
    exact hs.le_root h hm hx

theorem fitted [OrderedScalar α] {extra : Option NodeId} (h : t.Shaped lev extra none [])
    (hm : (t.slot t.root).children = [id])
    (hb : Rectangle.IsHull t.dim (t.rectsOf (t.slot id)) (t'.slot t.root).bound) :
    t'.Fitted [] := by
  have hmem : id ∈ (t.slot t.root).children := by simp [hm]
  have hdim := hs.frame.dim
  have hbound : ∀ x, x ≠ id → x ≠ t.root → (t'.slot x).bound = (t.slot x).bound := by
    intro x hi hr
    obtain ⟨q, hq⟩ := hs.other_eq hi hr
    rw [hq]
  constructor
  · intro x hx
    obtain ⟨hxu, hxi⟩ := (hs.inUse_iff x).mp hx
    rw [hdim]
    by_cases hr : x = t.root
    · exact hr ▸ hb.proper
    · rw [hbound x hxi hr]
      exact h.fitted.proper x hxu
  · intro x hx _
    obtain ⟨hxu, hxi⟩ := (hs.inUse_iff x).mp hx
    rw [hdim]
    by_cases hr : x = t.root
    · have hrects : t'.rectsOf (t'.slot x) = t.rectsOf (t.slot id) := by
        have hsame : t'.rectsOf (t'.slot x) = t'.rectsOf (t.slot id) := by
          unfold rectsOf
          rw [hr, hs.leaf, hs.points, hs.children]
        rw [hsame]
        apply rectsOf_congr hs.frame.store
        intro c hc
        exact hbound c (h.linked.child_ne hc) (h.linked.ne_root hc)
      rw [hrects]
      exact hr ▸ hb
    · have hrects : t'.rectsOf (t'.slot x) = t.rectsOf (t.slot x) := by
        obtain ⟨q, hq⟩ := hs.other_eq hxi hr
        rw [hq]
        apply rectsOf_congr hs.frame.store
        intro c hc
        apply hbound
        · intro heq
          subst heq
          exact hr (h.linked.owner_unique hc hmem)
        · exact h.linked.ne_root hc
      rw [hrects, hbound x hxi hr]
      exact h.fitted.hull x hxu (by simp)

end Inherited

/-- The root is taking the place of its child `id`. The child is out of use, the root has become `n`
and the parent of `adopted`. -/
structure TakenOver [Scalar α] (t t' : Tree α) (id : NodeId) (n : Node α) (adopted : List NodeId) :
    Prop where
  frame : SameFrame t t'
  stats : t'.stats = t.stats
  tidy : t'.Tidy
  free : t'.free = id :: t.free
  size_arena : t'.arena.size = t.arena.size
  slot_id : t'.slot id = (t.slot id).retire
  slot_root : t'.slot t.root = n
  moved : ∀ c ∈ adopted, t'.slot c = (t.slot c).withParent t.root
  other : ∀ x, x ≠ id → x ≠ t.root → x ∉ adopted → t'.slot x = t.slot x
  copies : ∀ p, t'.copies p + (t.slot id).points.count p + (t.slot t.root).points.count p =
    t.copies p + n.points.count p

namespace TakenOver

variable [Scalar α] {t t' : Tree α} {lev : NodeId → Nat} {id : NodeId} {n : Node α}
  {adopted : List NodeId}

theorem inUse_root (hs : TakenOver t t' id n adopted) (hn : n.retired = false) :
    t'.InUse t.root := by
  unfold InUse
  rw [hs.slot_root]
  exact hn

theorem retireNode (h : t.Linked lev []) (hm : id ∈ (t.slot t.root).children) :
    TakenOver t (t.retireNode id) id (t.slot t.root) [] := by
  have hid := (h.child t.root id hm).1
  have hslot : (t.retireNode id).slot = Function.update t.slot id (t.slot id).retire :=
    slot_retireNode hid
  refine
    { frame := sameFrame_retireNode t id, stats := rfl, tidy := h.tidy.retireNode hid, free := rfl
      size_arena := t.size_arena_updateNode id _, slot_id := ?_, slot_root := ?_
      moved := by simp, other := ?_, copies := ?_ }
  · rw [hslot, Function.update_self]
  · rw [hslot, Function.update_of_ne (h.child_ne hm).symm]
  · intro x hx _ _
    rw [hslot, Function.update_of_ne hx]
  · intro p
    rw [copies_retireNode hid p]

theorem updateRoot (hs : TakenOver t t' id n adopted) (h : t.Linked lev [])
    (hm : id ∈ (t.slot t.root).children) (hadopted : t.root ∉ adopted) (hn : n.retired = false)
    {f : Node α → Node α} (hf : (f n).retired = false) :
    TakenOver t (t'.updateNode t.root f) id (f n) adopted := by
  have hroot := hs.inUse_root hn
  have hnodes := nodesOnly_updateNode t' t.root f
  have hslot : (t'.updateNode t.root f).slot = Function.update t'.slot t.root (f n) := by
    rw [slot_updateNode hroot.lt, hs.slot_root]
  refine
    { frame := hs.frame.trans hnodes.frame, stats := hnodes.stats.trans hs.stats
      tidy := hs.tidy.updateNode hroot (hs.slot_root.symm ▸ hf)
      free := hnodes.free.trans hs.free, size_arena := hnodes.size_arena.trans hs.size_arena
      slot_id := ?_, slot_root := ?_, moved := ?_, other := ?_, copies := ?_ }
  · rw [hslot, Function.update_of_ne (h.child_ne hm), hs.slot_id]
  · rw [hslot, Function.update_self]
  · intro c hc
    have hcr : c ≠ t.root := by
      intro heq
      subst heq
      exact hadopted hc
    rw [hslot, Function.update_of_ne hcr, hs.moved c hc]
  · intro x hxi hxr hx
    rw [hslot, Function.update_of_ne hxr, hs.other x hxi hxr hx]
  · intro p
    have h1 := hs.copies p
    have h2 := copies_updateNode hroot.lt f p
    rw [hs.slot_root] at h2
    omega

theorem adopt (hs : TakenOver t t' id n []) (h : t.Linked lev []) :
    ∃ t'', (TreeM.adopt t.root (t.slot id).children).run t' = .ok () t'' ∧
      TakenOver t t'' id n (t.slot id).children := by
  have hslot : ∀ c ∈ (t.slot id).children, t'.slot c = t.slot c := by
    intro c hc
    exact hs.other c (h.child_ne hc) (h.ne_root hc) (by simp)
  have huse : ∀ c ∈ (t.slot id).children, t'.InUse c := by
    intro c hc
    exact (h.child id c hc).1.congr (hslot c hc)
  obtain ⟨t'', hrun, ha⟩ := TreeM.adopt_ok t.root fun c hc => (huse c hc).lt
  refine ⟨t'', hrun, ?_⟩
  refine
    { frame := hs.frame.trans ha.nodes.frame, stats := ha.nodes.stats.trans hs.stats
      tidy := hs.tidy.adopt ha huse, free := ha.nodes.free.trans hs.free
      size_arena := ha.nodes.size_arena.trans hs.size_arena
      slot_id := ?_, slot_root := ?_, moved := ?_, other := ?_, copies := ?_ }
  · rw [ha.slot, if_neg (h.self_unlisted id), hs.slot_id]
  · rw [ha.slot, if_neg (h.root_unlisted id), hs.slot_root]
  · intro c hc
    rw [ha.slot, if_pos hc, hslot c hc]
  · intro x hxi hxr hx
    rw [ha.slot, if_neg hx]
    exact hs.other x hxi hxr (by simp)
  · intro p
    rw [ha.copies]
    exact hs.copies p

/-- A directory that has taken over the children of another has the same entries. -/
theorem hullOf (hs : TakenOver t t' id n (t.slot id).children) (hleaf : (t.slot id).leaf = false)
    (hn : n.leaf = false) (hchildren : n.children = (t.slot id).children) :
    t'.hullOf n = t.hullOf (t.slot id) := by
  have hsame : t'.rectsOf n = t'.rectsOf (t.slot id) := by
    unfold rectsOf
    rw [hn, hleaf, hchildren]
    rfl
  have hrects : t'.rectsOf (t.slot id) = t.rectsOf (t.slot id) := by
    apply rectsOf_congr hs.frame.store
    intro c hc
    rw [hs.moved c hc]
    rfl
  unfold Tree.hullOf
  rw [hsame, hrects, hs.frame.dim]

end TakenOver

end Tree

end RTree
