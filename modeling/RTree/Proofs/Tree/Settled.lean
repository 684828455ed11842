import RTree.Proofs.Tree.Insertion
import RTree.Tree.Points

namespace RTree

variable {α : Type}

theorem countP_modify {p : α → Bool} {f : α → α} {xs : List α} {i : Nat} {x : α}
    (h : xs[i]? = some x) :
    (xs.modify i f).countP p + [x].countP p = xs.countP p + [f x].countP p := by
  obtain ⟨hi, rfl⟩ := List.getElem?_eq_some_iff.mp h
  have hsplit : xs = xs.take i ++ xs[i] :: xs.drop (i + 1) := by
    rw [← List.drop_eq_getElem_cons hi, List.take_append_drop]
  have hmodify : xs.modify i f = xs.take i ++ f xs[i] :: xs.drop (i + 1) :=
    List.modify_eq_take_cons_drop hi
  have h1 : xs.countP p = (xs.take i).countP p + [xs[i]].countP p + (xs.drop (i + 1)).countP p := by
    rw [← List.countP_append, ← List.countP_append, List.append_assoc]
    exact congrArg (List.countP p) hsplit
  have h2 : (xs.modify i f).countP p =
      (xs.take i).countP p + [f xs[i]].countP p + (xs.drop (i + 1)).countP p := by
    rw [← List.countP_append, ← List.countP_append, List.append_assoc]
    exact congrArg (List.countP p) hmodify
  omega

namespace Tree

/-- The tree with another store. A call changes the store before or after the nodes, which keeps it
out of the cascades. -/
def withStore (t : Tree α) (store : Array (StoredPoint α)) (size : Nat) : Tree α :=
  { t with store, size }

variable [Scalar α] {t t' : Tree α} {lev : NodeId → Nat} {id : PointId}

/-- The store may change as long as the points listed keep their places and coordinates. -/
theorem Sound.withStore (h : t.Sound) {store : Array (StoredPoint α)} {size : Nat}
    (hcoords : ∀ p : PointId, p.index < t.store.size →
      p.index < store.size ∧ (t.withStore store size).coordsAt p = t.coordsAt p)
    (hfinite : ∀ p : PointId, p.index < store.size →
      Rectangle.FinitePoint t.dim ((t.withStore store size).coordsAt p)) :
    (t.withStore store size).Sound := by
  obtain ⟨lev, h⟩ := h
  have hrects : ∀ x, (t.withStore store size).rectsOf (t.slot x) = t.rectsOf (t.slot x) := by
    intro x
    unfold rectsOf
    split
    · apply List.map_congr_left
      intro p hp
      rw [(hcoords p ((h.legible x).points p hp)).2]
    · rfl
  refine ⟨lev, h.feasible, ?_, ?_, ⟨h.fitted.proper, ?_⟩, ?_⟩
  · obtain ⟨⟨h1, h2, h3⟩, h4, h5, h6, h7, h8, h9, h10, h11, h12, h13⟩ := h.linked
    exact ⟨⟨h1, h2, h3⟩, h4, h5, h6, h7, h8, h9, h10, h11, h12, h13⟩
  · intro x hx
    exact (h.filled x hx).congr rfl (Nat.le_refl _) Iff.rfl rfl rfl rfl
  · intro x hx hl
    change Rectangle.IsHull t.dim ((t.withStore store size).rectsOf (t.slot x)) (t.slot x).bound
    rw [hrects]
    exact h.fitted.hull x hx hl
  · exact ⟨fun p hp => (hcoords p (h.registered.stored p hp)).1, h.registered.copies_le, hfinite⟩

/-- A single empty leaf is a tree in order. -/
theorem sound_ofConfig [OrderedScalar α] {c : Config α} (hc : c.Feasible) (stats : Counters α) :
    ({ ofConfig c with stats } : Tree α).Sound := by
  let t : Tree α := { ofConfig c with stats }
  change t.Sound
  have hslot : ∀ x, t.slot x = if x = t.root then .new true c.dimension none c.maxChildren
      else .vacant := by
    intro ⟨i⟩
    cases i with
    | zero => rfl
    | succ i => rfl
  have hroot : t.slot t.root = .new true c.dimension none c.maxChildren := rfl
  have hinUse : ∀ x, t.InUse x → x = t.root := by
    intro x hx
    by_contra hr
    unfold InUse at hx
    rw [hslot, if_neg hr] at hx
    cases hx
  have hchildren : ∀ x, (t.slot x).children = [] := by
    intro x
    rw [hslot]
    split <;> rfl
  have hcopies : ∀ p, t.copies p = 0 := fun p => rfl
  refine ⟨fun _ => 0, hc, ?_, ?_, ⟨?_, ?_⟩, ?_⟩
  · refine
      { tidy := ⟨List.nodup_nil, ?_, ?_⟩
        root := rfl, root_parent := rfl, oneKind := ?_, leaf_iff := ?_, nodup := ?_, child := ?_
        owner := fun x hx hr => absurd (hinUse x hx) hr
        le_root := fun _ _ => Nat.le_refl 0, floating := by simp, nodup_floating := List.nodup_nil }
    · intro ⟨i⟩
      change _ ∈ [] ↔ i < 1 ∧ (t.slot ⟨i⟩).retired = true
      cases i with
      | zero => simp [show t.slot ⟨0⟩ = _ from hroot, Node.new]
      | succ i => simp
    · intro x hx
      rw [hslot]
      split <;> exact ⟨rfl, rfl⟩
    · intro x hx
      rw [hinUse x hx, hroot]
      exact ⟨fun _ => rfl, fun _ => rfl⟩
    · intro x hx
      rw [hinUse x hx, hroot]
      simp [Node.new]
    · intro x
      rw [hchildren]
      exact List.nodup_nil
    · intro x c hm
      rw [hchildren] at hm
      cases hm
  · intro x hx
    rw [hinUse x hx]
    refine ⟨Nat.zero_le _, fun hr => absurd rfl hr, fun _ hl => ?_, 0, Nat.zero_le _, ?_, ?_⟩
    · cases hl
    · rw [hroot, Nat.pow_zero, Nat.mul_one]
      rfl
    · exact fun _ => rfl
  · intro x hx
    rw [hinUse x hx, hroot]
    exact Rectangle.proper_empty c.dimension
  · intro x hx _
    rw [hinUse x hx, hroot]
    exact Rectangle.isHull_nil c.dimension
  · refine ⟨fun p hp => ?_, fun p => Nat.zero_le 1, fun p hp => absurd hp (Nat.not_lt_zero _)⟩
    rw [hcopies] at hp
    cases hp

/-- A tree between two calls: each live point is in one leaf, no other point is in any. -/
structure Settled (t : Tree α) : Prop where
  sound : t.Sound
  copies : ∀ p, t.copies p = if t.contains p then 1 else 0
  size : t.size = t.store.toList.countP StoredPoint.live

/-- A live point is one listed by a leaf below the root. -/
theorem Settled.contains_iff (h : t.Settled) {p : PointId} :
    t.contains p = true ↔ ∃ leaf, t.Below t.root leaf ∧ p ∈ (t.slot leaf).points := by
  obtain ⟨lev, hshaped⟩ := h.sound
  have hcopies := h.copies p
  constructor
  · intro hlive
    rw [if_pos hlive] at hcopies
    obtain ⟨leaf, hp⟩ := exists_mem_points (p := p) (t := t) (by omega)
    exact ⟨leaf, hshaped.linked.below_root (hshaped.linked.inUse_of_mem_points hp), hp⟩
  · intro ⟨leaf, _, hp⟩
    by_contra hdead
    rw [if_neg hdead] at hcopies
    have h1 := t.count_points_le_copies leaf p
    have h2 := List.count_pos_iff.mpr hp
    omega

omit [Scalar α] in
theorem livePoints_pairwise (t : Tree α) :
    t.livePoints.Pairwise fun a b => a.index < b.index := by
  unfold livePoints
  rw [List.pairwise_filterMap]
  have hindex : ∀ (a : StoredPoint α × Nat) (i : PointId),
      (if a.1.live then some (⟨a.2⟩ : PointId) else none) = some i → i.index = a.2 := by
    intro a i hi
    split at hi
    · exact (congrArg PointId.index (Option.some.inj hi)).symm
    · cases hi
  apply (pairwise_zipIdx t.store.toList).imp
  intro a b hab i hi j hj
  rw [hindex a i hi, hindex b j hj]
  exact hab

omit [Scalar α] in
theorem nodup_livePoints (t : Tree α) : t.livePoints.Nodup := by
  apply t.livePoints_pairwise.imp
  intro p q hpq he
  rw [he] at hpq
  exact Nat.lt_irrefl _ hpq

omit [Scalar α] in
theorem length_livePoints (t : Tree α) :
    t.livePoints.length = t.store.toList.countP StoredPoint.live := by
  unfold livePoints
  generalize t.store.toList = l
  rw [List.length_filterMap_eq_countP]
  have h : l.countP StoredPoint.live = l.zipIdx.countP fun x => x.1.live := by
    rw [← Function.comp_def StoredPoint.live Prod.fst, ← List.countP_map, List.zipIdx_map_fst]
  rw [h]
  apply List.countP_congr
  intro x _
  cases hx : x.1.live <;> simp [hx]

omit [Scalar α] in
theorem point?_of_contains {p : PointId} (h : t.contains p = true) :
    t.point? p = some (t.coordsAt p) := by
  unfold contains at h
  unfold point? coordsAt
  cases hs : t.store[p.index]? with
  | none => simp [hs] at h
  | some s =>
    have hl : s.live = true := by simpa [hs] using h
    simp [Option.filter, hl]

omit [Scalar α] in
theorem pointId_eq_of_index {p q : PointId} (h : p.index = q.index) : p = q := by
  cases p
  cases q
  exact congrArg PointId.mk h

end Tree

end RTree
