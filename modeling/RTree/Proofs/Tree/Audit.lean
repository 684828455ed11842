import RTree.Proofs.Tree.Consistent
import RTree.Proofs.Tree.Walk

namespace RTree

variable {α : Type} [Scalar α] [OrderedScalar α]

namespace Tree

open Audit

variable {t : Tree α}

theorem rectsOf_proper (h : t.Readable) {x : t.Stop}
    (hc : ∀ place (hp : place < (t.slot x.node).children.length),
      Rectangle.Proper t.dim (t.slot (x.child place hp).node).bound) :
    ∀ r ∈ t.rectsOf (t.slot x.node), Rectangle.Proper t.dim r := by
  intro r hr
  unfold rectsOf at hr
  split at hr
  · rename_i hl
    obtain ⟨p, hp, rfl⟩ := List.mem_map.mp hr
    exact (h.finite p (h.point x.node p ⟨hl, hp⟩)).proper
  · obtain ⟨c, hm, rfl⟩ := List.mem_map.mp hr
    obtain ⟨place, hplace, rfl⟩ := List.getElem_of_mem hm
    exact hc place hplace

theorem Consistent.coherent (h : t.Readable) (hc : t.Consistent) {log : List t.Stop}
    (hn : log.Nodup) : t.Coherent log where
  root_parent := hc.root_parent
  fit := fun x _ => hc.fit x
  tight := by
    intro x _
    have hproper := rectsOf_proper h fun place hp => (hc.hull (x.child place hp)).proper
    have hhull := Rectangle.isHull_foldl hproper (Rectangle.isHull_nil t.dim)
    exact hhull.beq (hc.hull x)
  pairwise := by
    apply hn.pairwise_of_forall_ne
    intro x _ y _ hne
    obtain ⟨d, hd⟩ := hc.depth
    have hnode : x.node ≠ y.node := fun he => hne (Stop.ext (hc.once x y he))
    exact ⟨hnode, fun hx hy => (hd x hx).trans (hd y hy).symm,
      fun p hx hy => hnode (hc.apart x y p hx hy)⟩

/-- Bounds that count as equal to what the entries give are the least ones, from the leaves up. -/
theorem Coherent.hull (h : t.Readable) {log : List t.Stop} (hc : t.Coherent log)
    (hall : ∀ x : t.Stop, x ∈ log) {limit : Nat} (hlim : ∀ y : t.Stop, y.route.length < limit)
    (x : t.Stop) : Rectangle.IsHull t.dim (t.rectsOf (t.slot x.node)) (t.slot x.node).bound := by
  induction hk : limit - x.route.length generalizing x with
  | zero =>
    have := hlim x
    omega
  | succ k ih =>
    have hproper : ∀ r ∈ t.rectsOf (t.slot x.node), Rectangle.Proper t.dim r := by
      apply rectsOf_proper h
      intro place hplace
      have hlen : (x.child place hplace).route.length = x.route.length + 1 := rfl
      exact (ih (x.child place hplace) (by omega)).proper
    have hhull := Rectangle.isHull_foldl hproper (Rectangle.isHull_nil t.dim)
    exact hhull.of_beq (hc.tight x (hall x))

omit [OrderedScalar α] in
theorem Coherent.node_injective {log : List t.Stop} (hc : t.Coherent log)
    (hall : ∀ x : t.Stop, x ∈ log) {x y : t.Stop} (he : x.node = y.node) : x = y := by
  by_contra hne
  exact (hc.pairwise.forall (hall x) (hall y) hne).node he

theorem Coherent.consistent (h : t.Readable) {log : List t.Stop} (hc : t.Coherent log)
    (hall : ∀ x : t.Stop, x ∈ log)
    (hlisted : ∀ p, t.contains p = true → ∃ x : t.Stop, t.Lists x.node p)
    (hsize : t.size = t.livePoints.length) : t.Consistent where
  root_parent := hc.root_parent
  once := fun x y he => by rw [hc.node_injective hall he]
  depth := by
    by_cases hleaf : ∃ x : t.Stop, (t.slot x.node).leaf = true
    · obtain ⟨x, hx⟩ := hleaf
      refine ⟨x.route.length, fun y hy => ?_⟩
      by_cases he : y = x
      · rw [he]
      · exact (hc.pairwise.forall (hall y) (hall x) he).depth hy hx
    · exact ⟨0, fun x hx => absurd ⟨x, hx⟩ hleaf⟩
  fit := fun x => hc.fit x (hall x)
  hull := hc.hull h hall (Stop.length_lt h fun x y he => by rw [hc.node_injective hall he])
  listed := hlisted
  apart := by
    intro x y p hx hy
    by_contra hne
    have hxy : x ≠ y := fun he => hne (by rw [he])
    exact (hc.pairwise.forall (hall x) (hall y) hxy).points p hx hy
  size := hsize

/-- The audit of any tree ends, and finds nothing broken in those that are consistent only. -/
theorem exists_audit (h : t.Readable) :
    ∃ r, t.audit = .ok r ∧ (r.isValid = true ↔ t.Consistent) := by
  obtain ⟨a, log, r, hlogged, hall, hrun, hvalid⟩ := audit_logged h
  have hpoints : t.Coherent log →
      ((∀ p, t.contains p = true → p ∈ a.points) ↔
        ∀ p, t.contains p = true → ∃ x : t.Stop, t.Lists x.node p) := by
    intro hc
    refine forall₂_congr fun p hp => ?_
    rw [hlogged.points, and_iff_right hp]
    exact ⟨fun ⟨x, _, hx⟩ => ⟨x, hx⟩, fun ⟨x, hx⟩ => ⟨x, hall hc x, hx⟩⟩
  have hlength : (∀ p, t.contains p = true → p ∈ a.points) →
      a.points.length = t.livePoints.length := by
    intro hlive
    have hmem : ∀ p, p ∈ a.points ↔ p ∈ t.livePoints := by
      intro p
      rw [mem_livePoints]
      exact ⟨fun hp => ((hlogged.points p).mp hp).1, hlive p⟩
    exact ((List.perm_ext_iff_of_nodup hlogged.nodup_points t.nodup_livePoints).mpr hmem).length_eq
  refine ⟨r, hrun, hvalid.trans ⟨?_, ?_⟩⟩
  · rintro ⟨⟨hc, hlive⟩, hsize⟩
    exact hc.consistent h (hall hc) ((hpoints hc).mp hlive)
      (hsize.symm.trans (hlength hlive))
  · intro hcons
    have hc := hcons.coherent h hlogged.nodup
    have hlive := (hpoints hc).mpr hcons.listed
    exact ⟨⟨hc, hlive⟩, (hlength hlive).trans hcons.size.symm⟩

/-- Nothing is broken in a tree between calls. -/
theorem audit_ok (h : t.Settled) : ∃ r, t.audit = .ok r ∧ r.isValid = true := by
  obtain ⟨r, hrun, hvalid⟩ := exists_audit h.readable
  exact ⟨r, hrun, hvalid.mpr h.consistent⟩

end Tree

end RTree
