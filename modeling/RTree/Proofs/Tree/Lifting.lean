import RTree.Proofs.Tree.Condense
import RTree.Proofs.Tree.Search

namespace RTree

variable {α : Type}

namespace Tree

/-- A point has been taken out, and `orphans` have fallen out with it. -/
structure Lifted (t t' : Tree α) (p : PointId) (orphans : List PointId) : Prop where
  frame : SameFrame t t'
  stats : t'.stats = t.stats
  size_arena : t'.arena.size = t.arena.size
  kept : ∀ x, t'.InUse x → t.InUse x ∧ (t'.slot x).history = (t.slot x).history ∧
    (((t'.slot x).leaf = (t.slot x).leaf ∧ (t'.slot x).capacity = (t.slot x).capacity) ∨
      (x = t.root ∧ (t'.slot x).leaf = true ∧ (t'.slot x).capacity = t.config.maxChildren))
  copies : ∀ q, t'.copies q + orphans.count q + [p].count q = t.copies q

theorem length_filter_ne {points : List PointId} (hnodup : points.Nodup) {p : PointId}
    (hp : p ∈ points) : (points.filter (· != p)).length + 1 = points.length := by
  rw [← hnodup.erase_eq_filter]
  exact List.length_erase_add_one hp

/-- A leaf lists these points and others, enough to do without them. -/
structure Spares (t : Tree α) (leaf : NodeId) (points : List PointId) : Prop where
  listed : ∀ p ∈ points, p ∈ (t.slot leaf).points
  enough : t.config.minLeafSize + points.length ≤ (t.slot leaf).points.length

theorem Spares.lt_length {t : Tree α} {leaf : NodeId} {p : PointId} {points : List PointId}
    (h : t.Spares leaf (p :: points)) : t.config.minLeafSize < (t.slot leaf).points.length := by
  have henough := h.enough
  rw [List.length_cons] at henough
  omega

structure Drained (t t' : Tree α) (leaf : NodeId) (p : PointId) : Prop where
  links : SameLinks t t'
  stats : t'.stats = t.stats
  points : (t'.slot leaf).points = (t.slot leaf).points.filter (· != p)

/-- After one point the leaf can do without the next. -/
theorem Drained.spares {t t' : Tree α} {leaf : NodeId} {p : PointId} {points : List PointId}
    (hd : Drained t t' leaf p) (hp : p ∉ points) (hnodup : (t.slot leaf).points.Nodup)
    (h : t.Spares leaf (p :: points)) : t'.Spares leaf points := by
  have hlength := length_filter_ne hnodup (h.listed p (by simp))
  have henough := h.enough
  rw [List.length_cons] at henough
  refine ⟨fun q hq => ?_, ?_⟩
  · rw [hd.points, List.mem_filter, bne_iff_ne]
    exact ⟨h.listed q (by simp [hq]), fun heq => hp (heq ▸ hq)⟩
  · rw [hd.points, hd.links.frame.config]
    omega

variable {t : Tree α} {lev : NodeId → Nat} {leaf : NodeId} {p : PointId} {extra : Option NodeId}

def strike (t : Tree α) (leaf : NodeId) (p : PointId) : Tree α :=
  t.updateNode leaf fun n => { n with points := n.points.filter (· != p) }

theorem slot_strike (hu : t.InUse leaf) :
    (t.strike leaf p).slot = Function.update t.slot leaf
      { t.slot leaf with points := (t.slot leaf).points.filter (· != p) } :=
  slot_updateNode hu.lt _

theorem sameLinks_strike (hu : t.InUse leaf) (hl : (t.slot leaf).leaf = true) :
    SameLinks t (t.strike leaf p) :=
  sameLinks_updateNode hu rfl rfl rfl rfl fun hf => by
    rw [hl] at hf
    cases hf

variable [Scalar α]

theorem copies_strike (h : t.Registered) (hu : t.InUse leaf) (hp : p ∈ (t.slot leaf).points)
    (q : PointId) : (t.strike leaf p).copies q + [p].count q = t.copies q := by
  have hnd := nodup_points h.copies_le leaf
  have hc : (t.strike leaf p).copies q + (t.slot leaf).points.count q =
      t.copies q + ((t.slot leaf).points.filter (· != p)).count q := copies_updateNode hu.lt _ q
  rw [← hnd.erase_eq_filter] at hc
  by_cases hq : q = p
  · subst hq
    rw [List.count_erase_self] at hc
    have hpos := List.count_pos_iff.mpr hp
    simp only [List.count_singleton_self]
    omega
  · rw [List.count_erase_of_ne hq] at hc
    have hz : [p].count q = 0 := by simp [Ne.symm hq]
    omega

omit [Scalar α] in
theorem FilledAt.strike {e : Nat} (h : t.FilledAt leaf e 0) (he : e ≤ 1) (hu : t.InUse leaf)
    (hl : (t.slot leaf).leaf = true) (hnd : (t.slot leaf).points.Nodup)
    (hp : p ∈ (t.slot leaf).points) : (t.strike leaf p).FilledAt leaf 0 1 := by
  have hself : (t.strike leaf p).slot leaf =
      { t.slot leaf with points := (t.slot leaf).points.filter (· != p) } := by
    rw [slot_strike hu, Function.update_self]
  have hcount : ((t.strike leaf p).slot leaf).entryCount + 1 = (t.slot leaf).entryCount := by
    have hlength := length_filter_ne hnd hp
    rw [hself]
    simpa only [Node.entryCount, hl, if_true] using hlength
  have hroom : (t.strike leaf p).room ((t.strike leaf p).slot leaf) = t.room (t.slot leaf) := by
    rw [hself]
    rfl
  have hmin : (t.strike leaf p).minimumFill ((t.strike leaf p).slot leaf) =
      t.minimumFill (t.slot leaf) := by
    rw [hself]
    rfl
  have hupper := h.upper
  refine ⟨by omega, fun hr => ?_, fun _ hf => ?_, ?_⟩
  · have hlower := h.lower hr
    omega
  · rw [hself] at hf
    rw [hl] at hf
    cases hf
  · rw [hself]
    exact h.capacity

/-- A leaf that may have had a point too many now has at most one too few. -/
theorem Shaped.strike [OrderedScalar α] (h : t.Shaped lev extra none [])
    (hextra : ∀ x ∈ extra, x = leaf) (hp : p ∈ (t.slot leaf).points) (rest : List NodeId) :
    (t.strike leaf p).Shaped lev none (some leaf) (leaf :: rest) := by
  have hu := h.linked.inUse_of_mem_points hp
  have hl := h.linked.leaf_of_mem_points hp
  have hs : (t.strike leaf p).slot = Function.update t.slot leaf
      { t.slot leaf with points := (t.slot leaf).points.filter (· != p) } := slot_strike hu
  have hlinks : SameLinks t (t.strike leaf p) := sameLinks_strike hu hl
  have hslot : ∀ x, x ≠ leaf → (t.strike leaf p).slot x = t.slot x := fun x hx => by
    rw [hs, Function.update_of_ne hx]
  have hself : (t.strike leaf p).slot leaf =
      { t.slot leaf with points := (t.slot leaf).points.filter (· != p) } := by
    rw [hs, Function.update_self]
  have hbound : ∀ x, ((t.strike leaf p).slot x).bound = (t.slot x).bound := by
    intro x
    by_cases hx : x = leaf
    · rw [hx, hself]
    · rw [hslot x hx]
  refine
    { feasible := h.feasible
      linked := h.linked.congr hlinks
      filled := fun x hx => ?_
      fitted := ⟨fun x hx => ?_, fun x hx hm => ?_⟩
      registered := ⟨fun q hq => ?_, fun q => ?_, h.registered.finite⟩ }
  · have hfx := h.filled x ((hlinks.inUse x).mp hx)
    by_cases hxl : x = leaf
    · subst hxl
      have hle : excess extra x ≤ 1 := by
        unfold excess
        split <;> omega
      rw [excess_none, excess_self]
      exact FilledAt.strike hfx hle hu hl (nodup_points h.registered.copies_le x) hp
    · have hov : excess extra x = 0 := by
        unfold excess
        rw [if_neg fun he => hxl (hextra x (by simp [he]))]
      rw [hov] at hfx
      rw [excess_of_ne hxl]
      exact hfx.congr rfl (Nat.le_refl _) Iff.rfl (hlinks.leaf x) (by rw [hslot x hxl])
        (by rw [hslot x hxl])
  · rw [hbound]
    exact h.fitted.proper x ((hlinks.inUse x).mp hx)
  · have hxl : x ≠ leaf := fun he => hm (by simp [he])
    have hrects : (t.strike leaf p).rectsOf ((t.strike leaf p).slot x) = t.rectsOf (t.slot x) := by
      rw [hslot x hxl]
      exact rectsOf_congr rfl fun c _ => hbound c
    rw [hbound, hrects]
    exact h.fitted.hull x ((hlinks.inUse x).mp hx) (by simp)
  · have := copies_strike h.registered hu hp q
    exact h.registered.stored q (by omega)
  · have h1 := copies_strike h.registered hu hp q
    have h2 := h.registered.copies_le q
    omega

/-- A leaf with points to spare has enough afterwards. -/
theorem Shaped.filled_strike [OrderedScalar α] (h : t.Shaped lev extra none [])
    (hextra : ∀ x ∈ extra, x = leaf) (hp : p ∈ (t.slot leaf).points)
    (hmany : t.config.minLeafSize < (t.slot leaf).points.length) :
    (t.strike leaf p).Filled none none := by
  have hu := h.linked.inUse_of_mem_points hp
  have hl := h.linked.leaf_of_mem_points hp
  have hslot : (t.strike leaf p).slot leaf =
      { t.slot leaf with points := (t.slot leaf).points.filter (· != p) } := by
    rw [slot_strike hu, Function.update_self]
  have hlength := length_filter_ne (nodup_points h.registered.copies_le leaf) hp
  apply ((h.strike hextra hp []).enough ?_).filled
  rw [hslot]
  simp only [minimumFill, Node.entryCount, hl, if_true]
  change t.config.minLeafSize ≤ _
  omega

/-- After condensing, nodes in use are what they were, but for a root that has become a leaf. -/
theorem lifted_of_condensed {t₁ t' : Tree α} {orphans : List PointId}
    (h : t.Shaped lev extra none []) (hp : p ∈ (t.slot leaf).points)
    (hc : Condensed (t.strike leaf p) t₁ orphans) (hr : RootSettled t₁ t')
    (hroot₁ : t₁.InUse t₁.root) : Lifted t t' p orphans := by
  have hu := h.linked.inUse_of_mem_points hp
  have hlinks : SameLinks t (t.strike leaf p) :=
    sameLinks_strike hu (h.linked.leaf_of_mem_points hp)
  have hslot : ∀ x, ∃ ps, (t.strike leaf p).slot x = { t.slot x with points := ps } := by
    intro x
    rw [slot_strike hu]
    by_cases hx : x = leaf
    · subst hx
      exact ⟨_, Function.update_self ..⟩
    · exact ⟨(t.slot x).points, Function.update_of_ne hx ..⟩
  have hroot : t₁.root = t.root := hc.frame.root.trans hlinks.frame.root
  refine
    { frame := (hlinks.frame.trans hc.frame).trans hr.frame
      stats := hr.stats.trans hc.stats
      size_arena := (hr.size_arena.trans hc.size_arena).trans hlinks.size_arena
      kept := fun x hx => ?_
      copies := fun q => ?_ }
  · have hx₁ : t₁.InUse x := by
      by_cases hxr : x = t₁.root
      · exact hxr ▸ hroot₁
      · unfold InUse at hx ⊢
        rwa [hr.other x hxr] at hx
    obtain ⟨hx₂, cs, b, hcx⟩ := hc.kept x hx₁
    obtain ⟨ps, hps⟩ := hslot x
    refine ⟨(hlinks.inUse x).mp hx₂, ?_⟩
    by_cases hxr : x = t₁.root
    · rcases hr.root.2 with ⟨b', hb'⟩ | ⟨-, b', hb'⟩
      · rw [hxr, hb', ← hxr, hcx, hps]
        exact ⟨rfl, .inl ⟨rfl, rfl⟩⟩
      · rw [hxr, hb', ← hxr, hcx, hps]
        refine ⟨rfl, .inr ⟨hxr.trans hroot, rfl, ?_⟩⟩
        change t₁.config.maxChildren = t.config.maxChildren
        rw [hc.frame.config, hlinks.frame.config]
    · rw [hr.other x hxr, hcx, hps]
      exact ⟨rfl, .inl ⟨rfl, rfl⟩⟩
  · have h1 := copies_strike h.registered hu hp q
    have h2 := hc.copies q
    have h3 := hr.copies q
    omega

omit [Scalar α] in
/-- When no node is dissolved, the point has but left its leaf. -/
theorem drained_of_sameLinks {t₁ t' : Tree α} (h : t.Linked lev []) (hp : p ∈ (t.slot leaf).points)
    (hsame : SameLinks (t.strike leaf p) t₁) (hc : Condensed (t.strike leaf p) t₁ [])
    (hr : RootSettled t₁ t') : Drained t t' leaf p := by
  have hu := h.inUse_of_mem_points hp
  have hl := h.leaf_of_mem_points hp
  have hlinks : SameLinks t t₁ := (sameLinks_strike hu hl).trans hsame
  have hroot : (t.slot t.root).leaf = true ∨ (t.slot t.root).children ≠ [] := by
    rcases Relation.ReflTransGen.cases_head (h.below_root hu) with heq | ⟨c, hc, -⟩
    · rw [heq]
      exact .inl hl
    · exact .inr (List.ne_nil_of_mem hc)
  refine ⟨hlinks.trans (hr.sameLinks ?_), hr.stats.trans hc.stats, ?_⟩
  · rw [hlinks.frame.root, hlinks.leaf, hlinks.children]
    exact hroot
  · obtain ⟨-, cs, b, hslot⟩ := hc.kept leaf ((hlinks.inUse leaf).mpr hu)
    rw [hr.points, hslot, slot_strike hu, Function.update_self]

end Tree

namespace TreeM

open RTree.Tree

variable [Scalar α] [OrderedScalar α] {t : Tree α} {lev : NodeId → Nat} {extra : Option NodeId}

/-- A listed point is struck off, and the tree gets in order again. If the leaf had points to spare,
no node is dissolved. -/
theorem lift_ok (h : t.Shaped lev extra none []) {leaf : NodeId} {p : PointId}
    (hextra : ∀ x ∈ extra, x = leaf) (hp : p ∈ (t.slot leaf).points) :
    ∃ orphans t₁ t', (modifyNode leaf fun n =>
        { n with points := n.points.filter (· != p) }).run t = .ok () (t.strike leaf p) ∧
      (condenseFrom (2 * (t.strike leaf p).walkLimit) leaf).run (t.strike leaf p) =
        .ok orphans t₁ ∧
      settleRoot.run t₁ = .ok () t' ∧ t'.Sound ∧ Lifted t t' p orphans ∧
      (t.config.minLeafSize < (t.slot leaf).points.length →
        orphans = [] ∧ Drained t t' leaf p) := by
  have hu := h.linked.inUse_of_mem_points hp
  have hl := h.linked.leaf_of_mem_points hp
  have hlinks : SameLinks t (t.strike leaf p) := sameLinks_strike hu hl
  obtain ⟨rest, hlineage⟩ := h.linked.exists_lineage hu
  have hlen := hlineage.level_add_length h.linked
  have hdeep := h.level_root_lt
  have hs := h.strike hextra hp rest
  have hl₁ : (t.strike leaf p).Lineage (leaf :: rest) :=
    hlineage.congr hlinks.frame.root fun x _ => hlinks.children x
  have hlim : rest.length < 2 * (t.strike leaf p).walkLimit := by
    have := hlinks.size_arena
    unfold walkLimit
    omega
  obtain ⟨orphans, t₁, hrun₁, h₁, hc, hsame⟩ := condenseFrom_ok hs hl₁ hlim (by
    rw [hlinks.frame.root, hlinks.size_arena]
    exact hdeep)
  obtain ⟨t', hrun', hsound, hr⟩ := settleRoot_ok h₁
  refine ⟨orphans, t₁, t', modifyNode_ok hu.lt _, hrun₁, hrun', hsound,
    lifted_of_condensed h hp hc hr h₁.linked.root, fun hmany => ?_⟩
  obtain ⟨rfl, hlinks₁⟩ := hsame (h.filled_strike hextra hp hmany)
  exact ⟨rfl, drained_of_sameLinks h.linked hp hlinks₁ hc hr⟩

end TreeM

end RTree
