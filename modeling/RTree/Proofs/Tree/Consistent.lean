import RTree.Proofs.Tree.Settled
import RTree.Proofs.Tree.Stops

namespace RTree

variable {α : Type}

namespace Tree

variable {t : Tree α} {lev : NodeId → Nat}

theorem Linked.level_stop (h : t.Linked lev []) (x : t.Stop) :
    t.InUse x.node ∧ lev x.node + x.route.length = lev t.root := by
  obtain ⟨route, node, hx⟩ := x
  induction route generalizing node with
  | nil =>
    obtain rfl : t.root = node := Option.some.inj hx
    exact ⟨h.root, rfl⟩
  | cons place route ih =>
    obtain ⟨z, hz, hplace⟩ := follow_cons.mp hx
    obtain ⟨hu, -, hlev⟩ := h.child z node (List.mem_of_getElem? hplace)
    have hroot := (ih z hz).2
    simp only [List.length_cons] at hroot ⊢
    exact ⟨hu, by omega⟩

/-- Each node has one owner, and stands in one place there. -/
theorem Linked.route_unique (h : t.Linked lev []) (x y : t.Stop) (he : x.node = y.node) :
    x.route = y.route := by
  have hlevel := (h.level_stop y).2.trans (h.level_stop x).2.symm
  obtain ⟨route, node, hx⟩ := x
  obtain ⟨route', node', hy⟩ := y
  obtain rfl : node = node' := he
  simp only [Nat.add_left_cancel_iff] at hlevel ⊢
  induction route generalizing node route' with
  | nil => exact (List.eq_nil_of_length_eq_zero hlevel).symm
  | cons i route ih =>
    obtain ⟨j, route', rfl⟩ := List.exists_cons_of_length_eq_add_one hlevel
    obtain ⟨z, hz, hi⟩ := follow_cons.mp hx
    obtain ⟨z', hz', hj⟩ := follow_cons.mp hy
    obtain rfl := h.owner_unique (List.mem_of_getElem? hi) (List.mem_of_getElem? hj)
    have hlt := (List.getElem?_eq_some_iff.mp hi).1
    rw [ih z hz route' hz' (by simpa using hlevel),
      (List.getElem?_inj hlt (h.nodup z)).mp (hi.trans hj.symm)]

variable [Scalar α]

theorem Sound.readable (h : t.Sound) : t.Readable := by
  obtain ⟨lev, hs⟩ := h
  exact ⟨hs.linked.root.lt, fun x c hc => (hs.linked.child x c hc).1.lt,
    fun x p hp => (hs.legible x).points p hp.2, hs.registered.finite⟩

theorem Settled.readable (h : t.Settled) : t.Readable := h.sound.readable

theorem Settled.fit (h : t.Settled) (hs : t.Shaped lev none none []) {x : NodeId}
    (hx : t.InUse x) : t.Fit x := by
  have hf := hs.filled x hx
  refine
    { inUse := hx, upper := hf.upper, lower := hf.lower, root := fun _ => hs.children_ne_nil hx
      capacity := ?_, oneKind := hs.linked.oneKind x hx
      parent := fun c hc => (hs.linked.child x c hc).2.1
      live := ?_, nodup := fun _ => nodup_points hs.registered.copies_le x }
  · intro hv hl
    obtain ⟨k, -, hcap, hzero⟩ := hf.capacity
    rw [hcap, hzero (.inr hv), Nat.pow_zero, Nat.mul_one]
  · intro p hp
    exact h.contains_iff.mpr ⟨x, hs.linked.below_root hx, hp.2⟩

theorem Settled.consistent (h : t.Settled) : t.Consistent := by
  obtain ⟨lev, hs⟩ := h.sound
  have hstop := hs.linked.level_stop
  refine
    { root_parent := hs.linked.root_parent, once := hs.linked.route_unique
      depth := ⟨lev t.root, ?_⟩, fit := fun x => h.fit hs (hstop x).1
      hull := fun x => hs.fitted.hull x.node (hstop x).1 (by simp)
      listed := ?_
      apart := fun x y p hx hy => eq_of_mem_points (hs.registered.copies_le p) hx.2 hy.2
      size := h.size.trans t.length_livePoints.symm }
  · intro x hx
    have hzero := (hs.linked.leaf_iff x.node (hstop x).1).mp hx
    have := (hstop x).2
    omega
  · intro p hp
    obtain ⟨n, hn, hpn⟩ := h.contains_iff.mp hp
    obtain ⟨x, rfl⟩ := Stop.exists_iff_below_root.mpr hn
    exact ⟨x, hs.linked.leaf_of_mem_points hpn, hpn⟩

namespace Consistent

theorem nodup_children (hc : t.Consistent) (x : t.Stop) : (t.slot x.node).children.Nodup := by
  rw [List.nodup_iff_injective_get]
  intro i j hij
  have hroute := hc.once (x.child i i.isLt) (x.child j j.isLt) hij
  exact Fin.ext (List.cons.inj hroute).1

theorem lists_of_mem (hc : t.Consistent) (x : t.Stop) {p : PointId}
    (hp : p ∈ (t.slot x.node).points) : t.Lists x.node p := by
  refine ⟨?_, hp⟩
  by_contra hl
  rw [(hc.fit x).oneKind.directory (by simpa using hl)] at hp
  cases hp

/-- A live point is one listed by a leaf below the root. -/
theorem contains_iff (hc : t.Consistent) {p : PointId} :
    t.contains p = true ↔ ∃ leaf, t.Below t.root leaf ∧ p ∈ (t.slot leaf).points := by
  constructor
  · intro hp
    obtain ⟨x, hx⟩ := hc.listed p hp
    exact ⟨x.node, Stop.exists_iff_below_root.mp ⟨x, rfl⟩, hx.2⟩
  · rintro ⟨leaf, hb, hp⟩
    obtain ⟨x, rfl⟩ := Stop.exists_iff_below_root.mpr hb
    exact (hc.fit x).live p (hc.lists_of_mem x hp)

/-- Points listed below different children of a node differ. -/
theorem child_unique (hc : t.Consistent) {x c d leaf leaf' : NodeId} {p : PointId}
    (hx : t.Below t.root x) (hcx : c ∈ (t.slot x).children) (hdx : d ∈ (t.slot x).children)
    (hcb : t.Below c leaf) (hdb : t.Below d leaf') (hp : p ∈ (t.slot leaf).points)
    (hp' : p ∈ (t.slot leaf').points) : c = d := by
  obtain ⟨x, rfl⟩ := Stop.exists_iff_below_root.mpr hx
  obtain ⟨i, hi, rfl⟩ := List.getElem_of_mem hcx
  obtain ⟨j, hj, rfl⟩ := List.getElem_of_mem hdx
  obtain ⟨y, rfl, hy⟩ := (Stop.below_iff (x := x.child i hi)).mp hcb
  obtain ⟨z, rfl, hz⟩ := (Stop.below_iff (x := x.child j hj)).mp hdb
  have hroute := hc.once y z (hc.apart y z p (hc.lists_of_mem y hp) (hc.lists_of_mem z hp'))
  obtain rfl := Stop.place_unique hy (hroute ▸ hz)
  rfl

/-- Nodes have levels that fall from parent to child, from the size of the arena at the root. -/
theorem exists_level (h : t.Readable) (hc : t.Consistent) :
    ∃ lev : NodeId → Nat, ∀ x : t.Stop, lev x.node + x.route.length = t.arena.size := by
  have hlev : ∀ n, ∃ level, ∀ x : t.Stop, x.node = n → level + x.route.length = t.arena.size := by
    intro n
    by_cases hn : ∃ x : t.Stop, x.node = n
    · obtain ⟨x, rfl⟩ := hn
      refine ⟨t.arena.size - x.route.length, fun y he => ?_⟩
      have hlt := Stop.length_lt h hc.once x
      rw [hc.once y x he]
      omega
    · exact ⟨0, fun x he => absurd ⟨x, he⟩ hn⟩
  choose lev hlev using hlev
  exact ⟨lev, fun x => hlev x.node x rfl⟩

theorem searchable (h : t.Readable) (hc : t.Consistent)
    (hlev : ∀ x : t.Stop, lev x.node + x.route.length = t.arena.size) :
    t.Searchable lev (t.Below t.root) := by
  have hstop : ∀ n, t.Below t.root n → ∃ x : t.Stop, x.node = n :=
    fun n hn => Stop.exists_iff_below_root.mpr hn
  constructor
  · intro n hn
    obtain ⟨x, rfl⟩ := hstop n hn
    exact x.lt h
  · intro n hn c hm
    obtain ⟨x, rfl⟩ := hstop n hn
    obtain ⟨place, hplace, rfl⟩ := List.getElem_of_mem hm
    have hx := hlev x
    have hchild : lev (x.child place hplace).node + (x.route.length + 1) = t.arena.size :=
      hlev (x.child place hplace)
    exact ⟨hn.tail hm, show lev (x.child place hplace).node < _ by omega⟩
  · intro n hn
    obtain ⟨x, rfl⟩ := hstop n hn
    exact (hc.fit x).oneKind
  · intro n hn
    obtain ⟨x, rfl⟩ := hstop n hn
    exact hc.hull x
  · intro n hn p hp
    obtain ⟨x, rfl⟩ := hstop n hn
    exact h.point x.node p (hc.lists_of_mem x hp)
  · exact h.finite

theorem exists_searchable (h : t.Readable) (hc : t.Consistent) :
    ∃ lev, t.Searchable lev (t.Below t.root) ∧ lev t.root < t.walkLimit := by
  obtain ⟨lev, hlev⟩ := hc.exists_level h
  have hroot : lev t.root + 0 = t.arena.size := hlev (Stop.root t)
  exact ⟨lev, hc.searchable h hlev, by unfold walkLimit; omega⟩

end Consistent

end Tree

end RTree
