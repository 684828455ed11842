import RTree.Proofs.Sorting
import RTree.Proofs.Tree.Consistent
import Mathlib.Data.List.Nodup

namespace RTree

variable {α : Type} [Scalar α]

namespace Tree

variable {t : Tree α} {lev : NodeId → Nat} {nodes : NodeId → Prop} {q : Rectangle α} {id : NodeId}
  {p : PointId}

variable [OrderedScalar α]

/-- No point below a node is in a rectangle that the node's bound misses. -/
theorem Searchable.contains_eq_false (h : t.Searchable lev nodes) (hq : q.dim = t.dim)
    (hid : nodes id) (hmiss : (t.slot id).bound.intersects q = false) {leaf : NodeId}
    (hb : t.Below id leaf) (hp : p ∈ (t.slot leaf).points) : q.contains (t.coordsAt p) = false := by
  have hfinite := h.finite p (h.stored leaf (h.below hid hb) p hp)
  have hdim : (t.slot id).bound.dim = (t.coordsAt p).length :=
    (h.hull id hid).proper.dim.trans hfinite.length.symm
  have hbound := h.contains_of_below hid hb hp
  by_contra hin
  have hmeet := Rectangle.intersects_of_contains hdim (hq.trans hfinite.length.symm) hbound
    (by simpa using hin)
  rw [hmiss] at hmeet
  cases hmeet

structure Collected (t : Tree α) (q : Rectangle α) (id : NodeId) (found : List PointId) :
    Prop where
  nodup : found.Nodup
  mem : ∀ p, p ∈ found ↔ (∃ leaf, t.Below id leaf ∧ p ∈ (t.slot leaf).points) ∧
    q.contains (t.coordsAt p) = true

namespace Collected

theorem missed (h : t.Searchable lev nodes) (hq : q.dim = t.dim) (hid : nodes id)
    (hmiss : (t.slot id).bound.intersects q = false) : t.Collected q id [] where
  nodup := List.nodup_nil
  mem := by
    intro p
    constructor
    · intro hp
      cases hp
    · intro ⟨⟨leaf, hb, hp⟩, hin⟩
      rw [h.contains_eq_false hq hid hmiss hb hp] at hin
      cases hin

omit [OrderedScalar α] in
theorem leaf {x : t.Stop} (hf : t.Fit x.node) (hl : (t.slot x.node).leaf = true) :
    t.Collected q x.node ((t.slot x.node).points.filter fun p => q.contains (t.coordsAt p)) where
  nodup := (hf.nodup hl).filter _
  mem := by
    intro p
    rw [List.mem_filter, listed_leaf hf.oneKind hl]

omit [OrderedScalar α] in
theorem directory (hc : t.Consistent) {x : t.Stop} (hl : (t.slot x.node).leaf = false)
    {found : NodeId → List PointId}
    (hfound : ∀ c ∈ (t.slot x.node).children, t.Collected q c (found c)) :
    t.Collected q x.node ((t.slot x.node).children.flatMap found) where
  nodup := by
    rw [List.nodup_flatMap]
    refine ⟨fun c hm => (hfound c hm).nodup, ?_⟩
    apply (hc.nodup_children x).imp_of_mem
    intro c d hcm hdm hne p hpc hpd
    obtain ⟨leaf, hcb, hp⟩ := (((hfound c hcm).mem p).mp hpc).1
    obtain ⟨leaf', hdb, hp'⟩ := (((hfound d hdm).mem p).mp hpd).1
    exact hne (hc.child_unique (Stop.exists_iff_below_root.mp ⟨x, rfl⟩) hcm hdm hcb hdb hp hp')
  mem := by
    intro p
    rw [List.mem_flatMap, listed_directory (hc.fit x).oneKind hl]
    constructor
    · intro ⟨c, hm, hpc⟩
      obtain ⟨hlisted, hin⟩ := ((hfound c hm).mem p).mp hpc
      exact ⟨⟨c, hm, hlisted⟩, hin⟩
    · intro ⟨⟨c, hm, hlisted⟩, hin⟩
      exact ⟨c, hm, ((hfound c hm).mem p).mpr ⟨hlisted, hin⟩⟩

end Collected

theorem collectFrom_ok (hc : t.Consistent) (h : t.Searchable lev (t.Below t.root))
    (hq : q.dim = t.dim) {limit : Nat} (hid : t.Below t.root id) (hlim : lev id < limit) :
    ∃ found, t.collectFrom q limit id = .ok found ∧ t.Collected q id found := by
  induction limit generalizing id with
  | zero => omega
  | succ limit ih =>
    obtain ⟨x, rfl⟩ := Stop.exists_iff_below_root.mpr hid
    unfold collectFrom
    rw [bind_of_ok (node_eq (h.lt x.node hid))]
    cases hmeet : (t.slot x.node).bound.intersects q with
    | false => exact ⟨[], rfl, .missed h hq hid hmeet⟩
    | true =>
      cases hl : (t.slot x.node).leaf with
      | true =>
        refine ⟨_, ?_, .leaf (hc.fit x) hl⟩
        simp only [Bool.not_true, Bool.false_eq_true, if_false, if_true]
        rw [bind_of_ok (placedPoints_ok (h.stored x.node hid)), List.filter_map, List.map_map]
        simp [Function.comp_def, pure, Except.pure]
      | false =>
        have hkids : ∀ c ∈ (t.slot x.node).children, ∃ found,
            t.collectFrom q limit c = .ok found ∧ t.Collected q c found := by
          intro c hm
          obtain ⟨hcn, hlev⟩ := h.child x.node hid c hm
          exact ih hcn (by omega)
        choose! found hfound using hkids
        have hall : (t.slot x.node).children.mapM (t.collectFrom q limit) =
            .ok ((t.slot x.node).children.map found) := mapM_ok fun c hm => (hfound c hm).1
        refine ⟨_, ?_, .directory hc hl fun c hm => (hfound c hm).2⟩
        simp only [Bool.not_true, Bool.false_eq_true, if_false]
        rw [bind_of_ok hall, ← List.flatMap_def]
        rfl

omit [Scalar α] [OrderedScalar α] in
/-- Sorting by arrival gives the one list in that order. -/
theorem stableSort_eq_of_perm {found ids : List PointId} (hperm : found.Perm ids)
    (hids : ids.Pairwise fun a b => a.index < b.index) :
    stableSort (fun a b => decide (a.index < b.index)) found = ids := by
  exact List.Perm.eq_of_pairwise
    (fun a b _ _ hab hba => pointId_eq_of_index (Nat.le_antisymm hab hba))
    (stableSort_pairwise_key PointId.index found) (hids.imp Nat.le_of_lt)
    ((stableSort_perm _ found).trans hperm)

/-- What is found in a rectangle are the live points that it contains, in the order of arrival. -/
theorem Consistent.within_ok (h : t.Readable) (hc : t.Consistent) (hq : q.dim = t.dim) :
    t.within q = .ok (t.livePoints.filter fun p => q.contains (t.coordsAt p)) := by
  obtain ⟨lev, hsearch, hlim⟩ := hc.exists_searchable h
  obtain ⟨found, hrun, hfound⟩ := collectFrom_ok hc hsearch hq .refl hlim
  have hlive := t.livePoints_pairwise.filter fun p => q.contains (t.coordsAt p)
  have hperm : found.Perm (t.livePoints.filter fun p => q.contains (t.coordsAt p)) := by
    rw [List.perm_ext_iff_of_nodup hfound.nodup (t.nodup_livePoints.filter _)]
    intro p
    rw [hfound.mem, List.mem_filter, mem_livePoints, hc.contains_iff]
  unfold within
  simp only [ne_eq, hq, not_true_eq_false, if_false]
  rw [bind_of_ok hrun, stableSort_eq_of_perm hperm hlive]
  rfl

/-- The way to the leaf of a live point is found. -/
theorem Consistent.path_ok (h : t.Readable) (hc : t.Consistent) (hp : t.contains p = true) :
    ∃ leaf way, t.path? p = .ok (some way) ∧ t.Way t.root leaf way ∧
      p ∈ (t.slot leaf).points := by
  obtain ⟨lev, hsearch, hlim⟩ := hc.exists_searchable h
  obtain ⟨found, hrun, htraced⟩ :=
    searchFrom_ok (p := p) hsearch .refl hlim
  obtain ⟨way, hway⟩ := Option.isSome_iff_exists.mp (htraced.complete (hc.contains_iff.mp hp))
  obtain ⟨leaf, hw, hmem, -⟩ := htraced.sound way hway
  refine ⟨leaf, way, ?_, hw, hmem⟩
  unfold path?
  rw [point?_of_contains hp, ← show found = some way from hway]
  exact hrun

end Tree

end RTree
