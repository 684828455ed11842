import RTree.Proofs.Scalar.Binary64
import RTree.Proofs.Slots
import Mathlib.Algebra.Order.BigOperators.Group.List
import Mathlib.Algebra.Order.Ring.Nat
import Mathlib.Tactic.Ring

namespace RTree

variable {α β γ : Type}

theorem mul_le_length_flatMap {f : β → List γ} {xs : List β} {n : Nat}
    (h : ∀ x ∈ xs, n ≤ (f x).length) : xs.length * n ≤ (xs.flatMap f).length := by
  rw [List.length_flatMap]
  simpa using List.card_nsmul_le_sum (xs.map fun x => (f x).length) n (by simpa using h)

theorem length_flatMap_le_mul {f : β → List γ} {xs : List β} {n : Nat}
    (h : ∀ x ∈ xs, (f x).length ≤ n) : (xs.flatMap f).length ≤ xs.length * n := by
  rw [List.length_flatMap]
  simpa using List.sum_le_card_nsmul (xs.map fun x => (f x).length) n (by simpa using h)

namespace Tree

def pointsAt (t : Tree α) : Nat → NodeId → List PointId
  | 0, x => (t.slot x).points
  | depth + 1, x => (t.slot x).children.flatMap (t.pointsAt depth)

variable {t : Tree α} {lev : NodeId → Nat}

namespace Linked

theorem leaf_of_level_zero (h : t.Linked lev []) {x : NodeId} (hx : t.InUse x) (hl : lev x = 0) :
    (t.slot x).leaf = true :=
  (h.leaf_iff x hx).mpr hl

theorem leaf_of_level_succ (h : t.Linked lev []) {x : NodeId} {depth : Nat} (hx : t.InUse x)
    (hl : lev x = depth + 1) : (t.slot x).leaf = false := by
  cases hleaf : (t.slot x).leaf with
  | false => rfl
  | true =>
    have hzero := (h.leaf_iff x hx).mp hleaf
    omega

/-- As many levels down as the node is high are its leaves. -/
theorem mem_pointsAt (h : t.Linked lev []) {depth : Nat} {x : NodeId} {p : PointId}
    (hx : t.InUse x) (hl : lev x = depth) :
    p ∈ t.pointsAt depth x ↔ ∃ leaf, t.Below x leaf ∧ p ∈ (t.slot leaf).points := by
  induction depth generalizing x with
  | zero => exact (listed_leaf (h.oneKind x hx) (h.leaf_of_level_zero hx hl)).symm
  | succ depth ih =>
    rw [listed_directory (h.oneKind x hx) (h.leaf_of_level_succ hx hl)]
    unfold pointsAt
    rw [List.mem_flatMap]
    refine exists_congr fun c => and_congr_right fun hc => ?_
    obtain ⟨hcu, -, hcl⟩ := h.child x c hc
    exact ih hcu (by omega)

/-- A point listed once is met once. -/
theorem nodup_pointsAt (h : t.Linked lev []) (hcopies : ∀ p, t.copies p ≤ 1) {depth : Nat}
    {x : NodeId} (hx : t.InUse x) (hl : lev x = depth) : (t.pointsAt depth x).Nodup := by
  induction depth generalizing x with
  | zero => exact nodup_points hcopies x
  | succ depth ih =>
    have hchild : ∀ c ∈ (t.slot x).children, t.InUse c ∧ lev c = depth := by
      intro c hc
      obtain ⟨hcu, -, hcl⟩ := h.child x c hc
      exact ⟨hcu, by omega⟩
    refine List.nodup_flatMap.mpr ⟨fun c hc => ih (hchild c hc).1 (hchild c hc).2, ?_⟩
    apply (h.nodup x).imp_of_mem
    intro c d hc hd hne p hpc hpd
    obtain ⟨leaf, hcb, hp⟩ := (h.mem_pointsAt (hchild c hc).1 (hchild c hc).2).mp hpc
    obtain ⟨leaf', hdb, hp'⟩ := (h.mem_pointsAt (hchild d hd).1 (hchild d hd).2).mp hpd
    obtain rfl := eq_of_mem_points (hcopies p) hp hp'
    exact hne (h.below_child_unique hc hd hcb hdb)

end Linked

variable [Scalar α] {extra : Option NodeId} {loose : List NodeId}

namespace Shaped

/-- Each level below the root multiplies the number of points by the fewest children at least. -/
theorem pow_le_length_pointsAt (h : t.Shaped lev none none loose) {depth : Nat} {x : NodeId}
    (hx : t.InUse x) (hroot : x ≠ t.root) (hl : lev x = depth) :
    t.config.minLeafSize * t.config.minChildren ^ depth ≤ (t.pointsAt depth x).length := by
  have hlower := (h.filled x hx).lower hroot
  induction depth generalizing x with
  | zero =>
    have hleaf := h.linked.leaf_of_level_zero hx hl
    simpa [minimumFill, Node.entryCount, hleaf, pointsAt] using hlower
  | succ depth ih =>
    have hleaf := h.linked.leaf_of_level_succ hx hl
    have hwidth : t.config.minChildren ≤ (t.slot x).children.length := by
      simpa [minimumFill, Node.entryCount, hleaf] using hlower
    have hchild : ∀ c ∈ (t.slot x).children,
        t.config.minLeafSize * t.config.minChildren ^ depth ≤ (t.pointsAt depth c).length := by
      intro c hc
      obtain ⟨hcu, -, hcl⟩ := h.linked.child x c hc
      have hcr := h.linked.ne_root hc
      exact ih hcu hcr (by omega) ((h.filled c hcu).lower hcr)
    calc t.config.minLeafSize * t.config.minChildren ^ (depth + 1)
        = t.config.minChildren * (t.config.minLeafSize * t.config.minChildren ^ depth) := by ring
      _ ≤ (t.slot x).children.length * (t.config.minLeafSize * t.config.minChildren ^ depth) :=
          Nat.mul_le_mul_right _ hwidth
      _ ≤ (t.pointsAt (depth + 1) x).length := mul_le_length_flatMap hchild

/-- Where no capacity is doubled each level multiplies it by the most children at most. -/
theorem length_pointsAt_le_pow (h : t.Shaped lev none none loose)
    (hv : t.config.variant ≠ .xTree) {depth : Nat} {x : NodeId} (hx : t.InUse x)
    (hl : lev x = depth) :
    (t.pointsAt depth x).length ≤ t.config.maxLeafSize * t.config.maxChildren ^ depth := by
  have hupper := (h.filled x hx).upper
  induction depth generalizing x with
  | zero =>
    have hleaf := h.linked.leaf_of_level_zero hx hl
    simpa [room, Node.entryCount, hleaf, pointsAt] using hupper
  | succ depth ih =>
    have hleaf := h.linked.leaf_of_level_succ hx hl
    have hcap : (t.slot x).capacity = t.config.maxChildren := by
      obtain ⟨k, -, hcap, hzero⟩ := (h.filled x hx).capacity
      rw [hcap, hzero (.inr hv), Nat.pow_zero, Nat.mul_one]
    have hwidth : (t.slot x).children.length ≤ t.config.maxChildren := by
      simpa [room, Node.entryCount, hleaf, hcap] using hupper
    have hchild : ∀ c ∈ (t.slot x).children,
        (t.pointsAt depth c).length ≤ t.config.maxLeafSize * t.config.maxChildren ^ depth := by
      intro c hc
      obtain ⟨hcu, -, hcl⟩ := h.linked.child x c hc
      exact ih hcu (by omega) (h.filled c hcu).upper
    calc (t.pointsAt (depth + 1) x).length
        ≤ (t.slot x).children.length * (t.config.maxLeafSize * t.config.maxChildren ^ depth) :=
          length_flatMap_le_mul hchild
      _ ≤ t.config.maxChildren * (t.config.maxLeafSize * t.config.maxChildren ^ depth) :=
          Nat.mul_le_mul_right _ hwidth
      _ = t.config.maxLeafSize * t.config.maxChildren ^ (depth + 1) := by ring

end Shaped

/-- The points at the bottom of a settled tree are the live ones. -/
theorem Settled.length_pointsAt (h : t.Settled) (hs : t.Shaped lev none none []) :
    (t.pointsAt (lev t.root) t.root).length = t.size := by
  have hperm : (t.pointsAt (lev t.root) t.root).Perm t.livePoints := by
    apply (List.perm_ext_iff_of_nodup ?_ t.nodup_livePoints).mpr
    · intro p
      rw [hs.linked.mem_pointsAt hs.linked.root rfl, ← h.contains_iff]
      exact mem_livePoints.symm
    · exact hs.linked.nodup_pointsAt hs.registered.copies_le hs.linked.root rfl
  rw [hperm.length_eq, length_livePoints, h.size]

/-- A root that is no leaf has a child, which the lower limit holds for. -/
theorem Shaped.pow_le_length_root (h : t.Shaped lev none none []) {depth : Nat}
    (hl : lev t.root = depth + 1) :
    t.config.minLeafSize * t.config.minChildren ^ depth ≤
      (t.pointsAt (depth + 1) t.root).length := by
  have hne := h.children_ne_nil h.linked.root (h.linked.leaf_of_level_succ h.linked.root hl)
  obtain ⟨c, hc⟩ := List.exists_mem_of_ne_nil _ hne
  obtain ⟨hcu, -, hcl⟩ := h.linked.child t.root c hc
  calc t.config.minLeafSize * t.config.minChildren ^ depth
      ≤ (t.pointsAt depth c).length :=
        h.pow_le_length_pointsAt hcu (h.linked.ne_root hc) (by omega)
    _ ≤ (t.pointsAt (depth + 1) t.root).length :=
        (List.sublist_flatten_of_mem (List.mem_map_of_mem hc)).length_le

variable [OrderedScalar α]

/-- After any calls a tree with leaves below its root has at least so many points as its height
demands, and outside X-trees no tree has more than its height admits. -/
theorem height_logarithmic {c : Config α} {t₀ : Tree α} (h : Tree.new c = .ok t₀)
    (ks : List (Call α)) :
    ∃ height, (t₀.calls ks).2.height = .ok height ∧
      (1 ≤ height → c.minLeafSize * c.minChildren ^ (height - 1) ≤ (t₀.calls ks).2.size) ∧
      (c.variant ≠ .xTree →
        (t₀.calls ks).2.size ≤ c.maxLeafSize * c.maxChildren ^ height) := by
  have hsettled := (settled_new h).calls ks
  have hconfig : (t₀.calls ks).2.config = c := by
    obtain ⟨-, rfl⟩ := new_eq_ok.mp h
    exact config_calls (settled_new h) ks
  obtain ⟨lev, hs⟩ := hsettled.sound
  have hcount := hsettled.length_pointsAt hs
  refine ⟨_, hs.height_ok, fun hheight => ?_, fun hv => ?_⟩
  · obtain ⟨depth, hdepth⟩ := Nat.exists_eq_add_of_le' hheight
    have hlower := hs.pow_le_length_root hdepth
    rw [← hdepth, hcount, hconfig] at hlower
    simpa [hdepth] using hlower
  · rw [← hcount, ← hconfig]
    exact hs.length_pointsAt_le_pow (hconfig ▸ hv) hs.linked.root rfl

def slender : Config Float :=
  { (default : Config Float) with
    minLeafSize := 1, maxLeafSize := 2, minChildren := 2, maxChildren := 3 }

/-- Eight points in a row make two levels above the leaves, which could have held eighteen. -/
theorem height_logarithmic_slender :
    ∃ t, t = ((ofConfig slender).calls ((List.range 8).map fun i =>
        .insert [Float.ofNat i, 0])).2 ∧
      t.height = .ok 2 ∧ t.size = 8 ∧ 1 * 2 ^ 1 ≤ t.size ∧ t.size ≤ 2 * 3 ^ 2 := by
  obtain ⟨height, hheight, hlower, hupper⟩ := height_logarithmic (c := slender) rfl
    ((List.range 8).map fun i => .insert [Float.ofNat i, 0])
  have htwo : ((ofConfig slender).calls ((List.range 8).map fun i =>
      .insert [Float.ofNat i, 0])).2.height.toOption = some 2 := by decide +kernel
  rw [hheight] at htwo
  obtain rfl : height = 2 := Option.some.inj htwo
  refine ⟨_, rfl, hheight, ?_, hlower (by decide), hupper (by decide)⟩
  decide +kernel

end Tree

end RTree
