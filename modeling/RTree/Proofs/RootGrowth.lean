import RTree.Proofs.Capacities
import RTree.Proofs.Tree.Midway

namespace RTree

variable {α : Type} [Scalar α]

namespace Tree

/-- The directory has twice the room. All else is as it was: the same nodes are below the root,
which is as high, and none of the others has been touched. -/
structure Widened (t t' : Tree α) (id : NodeId) : Prop where
  frame : SameFrame t t'
  node : ∃ bound, (bound == (t.slot id).bound) = true ∧
    t'.slot id = { t.slot id with capacity := 2 * (t.slot id).capacity, bound }
  listed : ∀ x ∈ (t'.slot id).children, (t'.slot x).parent = some id
  below : ∀ x, t'.Below t'.root x ↔ t.Below t.root x
  other : ∀ x, t.Below t.root x → x ≠ id → t'.slot x = t.slot x
  height : ∃ height, t.height = .ok height ∧ t'.height = .ok height

variable {c : Config α} {t t₁ t' : Tree α} {lev : NodeId → Nat} {id copy : NodeId}

/-- The least doubling of `2 * m` that holds one more than `m * 2 ^ i` is the next one. -/
theorem doublings_eq {m i k : Nat} (hm : 0 < m) (hneed : m * 2 ^ i + 1 ≤ 2 * m * 2 ^ k)
    (hleast : 0 < k → 2 * m * 2 ^ k < 2 * (m * 2 ^ i + 1)) : k = i := by
  have hpow : 2 * m * 2 ^ k = m * 2 ^ (k + 1) := by
    rw [Nat.pow_succ, Nat.mul_comm 2 m, Nat.mul_assoc, Nat.mul_comm 2]
  have hlow : i < k + 1 := by
    have hlt : m * 2 ^ i < m * 2 ^ (k + 1) := by omega
    exact (Nat.pow_lt_pow_iff_right (by omega : 1 < 2)).mp (Nat.lt_of_mul_lt_mul_left hlt)
  have hhigh : k ≤ i := by
    rcases Nat.eq_zero_or_pos k with rfl | hk
    · exact Nat.zero_le i
    · have hle := doublings_le (j := 0) hm (Nat.le_refl _) (by simpa using hleast hk)
      omega
  omega

/-- The capacity of the root begins anew when the root is pushed down, and comes to the double of
what it was. -/
theorem Absorbed.slot_raised (hs : Absorbed t₁ t' copy) (hp : PushedDown t t₁ copy)
    (h : t.Overfull lev t.root) (hl : (t.slot t.root).leaf = false) :
    t'.slot t.root =
      { t.slot t.root with
        capacity := 2 * (t.slot t.root).capacity, bound := t₁.hullOf (t₁.slot copy) } := by
  obtain ⟨i, -, hcap, -⟩ := (h.shaped.filled t.root h.inUse).capacity
  obtain ⟨k, capacity, hcapacity, hneed, hleast, hslot⟩ := hs.slot_root
  have hone : (t.slot t.root).children.length = t.config.maxChildren * 2 ^ i + 1 := by
    rw [← hcap]
    exact h.length_children hl
  rw [hp.frame.root, hp.slot_root] at hslot hcapacity
  rw [hp.children_copy, hone, hcapacity] at hneed hleast
  -- from the configured capacity it is doubled as often as it had been before, and once more
  have htwice : capacity = 2 * (t.slot t.root).capacity := by
    rw [hcapacity, doublings_eq h.shaped.feasible.maxChildren_pos hneed hleast, hcap, Nat.mul_assoc]
  have hpoints := (h.shaped.linked.oneKind t.root h.inUse).directory hl
  rw [hslot, htwice, hp.slot_copy, Node.withParent]
  simp only [hl, hpoints]

/-- The children of the root have another parent for a while. -/
theorem Absorbed.slot_other (hs : Absorbed t₁ t' copy) (hp : PushedDown t t₁ copy)
    (h : t.Linked lev []) {x : NodeId} (hx : t.InUse x) (hr : x ≠ t.root) :
    t'.slot x = t.slot x := by
  have hne := hp.ne_copy hx
  by_cases hm : x ∈ (t.slot t.root).children
  · have hparent := (h.child t.root x hm).2.1
    rw [hs.moved x (hp.children_copy ▸ hm), hp.moved x hm, hp.frame.root]
    simp only [Node.withParent, ← hparent]
  · rw [hs.other x hne (hp.frame.root ▸ hr) (hp.children_copy ▸ hm), hp.other x hne hr hm]

section

variable [OrderedScalar α]

theorem Overfull.widened (h : t.Overfull lev id) (hl : (t.slot id).leaf = false)
    (hd : t.strategy.onDirectory t id = .ok .supernode) : Widened t (t.widenNode id) id := by
  have hslot := slot_widenNode h.inUse
  have hlinks := sameLinks_widenNode h.inUse
  have hshaped := h.shaped.widenNode h.inUse hl (h.xTree hl hd)
  have hhull := h.shaped.fitted.hull id h.inUse (by simp)
  refine
    { frame := hlinks.frame
      node := ⟨(t.slot id).bound, hhull.beq hhull, ?_⟩
      listed := fun x hx => (hshaped.linked.child id x hx).2.1
      below := fun x => ?_
      other := fun x _ hx => ?_
      height := ⟨lev t.root, h.shaped.height_ok, hshaped.height_ok⟩ }
  · rw [hslot, Function.update_self]
  · rw [← h.shaped.linked.inUse_iff_below, ← hshaped.linked.inUse_iff_below]
    exact hlinks.inUse x
  · rw [hslot, Function.update_of_ne hx]

/-- The detour of the root comes to the same as more room in place. -/
theorem Absorbed.widened (hs : Absorbed t₁ t' copy) (hp : PushedDown t t₁ copy)
    (h : t.Overfull lev t.root) (hl : (t.slot t.root).leaf = false)
    (hd : t₁.strategy.onDirectory t₁ copy = .ok .supernode) : Widened t t' t.root := by
  obtain ⟨hover, honly, hleaf⟩ := h.pushedDown hp
  rw [hl] at hleaf
  have hinherited := hs.inherited hover.shaped.linked honly hleaf
  have hshaped := hs.shaped hover.shaped honly hleaf (hover.xTree hleaf hd)
  have hframe : SameFrame t t' := hp.frame.trans hs.frame
  have huse : ∀ x, t'.InUse x ↔ t.InUse x := by
    intro x
    rw [hinherited.inUse_iff, hp.inUse_iff h.shaped.linked]
    constructor
    · rintro ⟨hx | hx, hne⟩
      · exact absurd hx hne
      · exact hx
    · exact fun hx => ⟨.inr hx, hp.ne_copy hx⟩
  have hbound : (t₁.hullOf (t₁.slot copy) == (t.slot t.root).bound) = true := by
    have hnew := Rectangle.isHull_foldl (hover.shaped.rectsOf_proper copy)
      (Rectangle.isHull_nil t₁.dim)
    have hold := hover.shaped.fitted.hull copy hover.inUse (by simp)
    have hsame : (t₁.slot copy).bound = (t.slot t.root).bound := by
      rw [hp.slot_copy]
      rfl
    exact hsame ▸ hnew.beq hold
  have hheight := hshaped.height_ok
  rw [hs.frame.root, Inherited.levels_root, hp.levels_copy lev h.shaped.linked] at hheight
  refine
    { frame := hframe
      node := ⟨_, hbound, hs.slot_raised hp h hl⟩
      listed := fun x hx => (hshaped.linked.child t.root x hx).2.1
      below := fun x => ?_
      other := fun x hx hr => ?_
      height := ⟨lev t.root, h.shaped.height_ok, hheight⟩ }
  · rw [← h.shaped.linked.inUse_iff_below, ← hshaped.linked.inUse_iff_below]
    exact huse x
  · exact hs.slot_other hp h.shaped.linked ((h.shaped.linked.inUse_iff_below x).mpr hx) hr

/-- In the middle of a call, a root with one child more than it has room for is pushed down to a
copy. If the tree's strategy wants a supernode of that, the walk up the tree ends with the root in
twice the room. It ends like this when the strategy wants a supernode of any other directory that it
is asked about and that is not such a copy. -/
theorem supernodes_widened {t₀ : Tree α} (h : Tree.new c = .ok t₀) (ht : t.Midway c) :
    ((t.slot t.root).leaf = false →
      (t.slot t.root).children.length = (t.slot t.root).capacity + 1 →
        ∃ copy t₁, TreeM.pushDownRoot.run t = .ok copy t₁ ∧
          (t.strategy.onDirectory t₁ copy = .ok .supernode →
            ∃ t', (TreeM.resolveDirectory t.strategy t.root).run t = .ok () t' ∧
              Widened t t' t.root ∧
              t'.stats = { t.stats with
                rootPromotions := t.stats.rootPromotions + 1
                rootAbsorptions := t.stats.rootAbsorptions + 1
                supernodeGrowths := t.stats.supernodeGrowths + 1 })) ∧
    ∀ id, t.Asked c id → (t.slot id).leaf = false → (t.slot t.root).children ≠ [id] →
      t.strategy.onDirectory t id = .ok .supernode →
        ∃ t', (TreeM.resolveDirectory t.strategy id).run t = .ok () t' ∧ Widened t t' id ∧
          t'.stats = { t.stats with supernodeGrowths := t.stats.supernodeGrowths + 1 } := by
  obtain ⟨hvalid, -⟩ := new_eq_ok.mp h
  constructor
  · intro hl hone
    have hfull : t.room (t.slot t.root) < (t.slot t.root).entryCount := by
      simp [room, Node.entryCount, hl, hone]
    obtain ⟨lev, hover⟩ := ht.overfull hvalid .refl hfull
    obtain ⟨copy, t₁, hpush, hp⟩ := TreeM.pushDownRoot_ok hover.shaped.linked
    refine ⟨copy, t₁, hpush, fun hd => ?_⟩
    obtain ⟨hover₁, honly, hleaf⟩ := hover.pushedDown hp
    rw [hl] at hleaf
    obtain ⟨t', hrun, hs⟩ := TreeM.absorb_ok hover₁ hleaf honly
    have hwalk := TreeM.resolveDirectories_promoted t.walkLimit hover.inUse (hover.not_fits hl)
      hpush hd
    refine ⟨t', hwalk.trans hrun, hs.widened hp hover hl (hp.frame.strategy.symm ▸ hd), ?_⟩
    rw [hs.stats, hp.stats]
  · intro id hasked hl honly hd
    obtain ⟨lev, hover⟩ := hasked.overfull hvalid
    obtain ⟨parent, hm⟩ := hover.exists_parent hasked.ne_root
    have hrun := TreeM.makeSupernode_widen hover.shaped.linked hm honly
    have hwalk := TreeM.resolveDirectories_below t.walkLimit hover.inUse (hover.not_fits hl)
      hasked.ne_root hd
    exact ⟨t.widenNode id, hwalk.trans hrun, hover.widened hl hd, rfl⟩

end

def sprawl : List (Call Float) :=
  [.insert [5, 7], .insert [5, 6], .insert [6, 9], .insert [4, 8], .insert [1, 0], .insert [9, 2],
    .insert [5, 1], .insert [6, 0], .insert [2, 5]]

/-- Whether the tree's strategy wants a supernode of the copy of the root. -/
def rootWidens (t : Tree α) : Bool :=
  match TreeM.pushDownRoot.run t with
  | .ok copy t₁ =>
    match t.strategy.onDirectory t₁ copy with
    | .ok .supernode => true
    | _ => false
  | .error _ _ => false

theorem onDirectory_of_rootWidens (h : t.rootWidens = true)
    (hpush : TreeM.pushDownRoot.run t = .ok copy t₁) :
    t.strategy.onDirectory t₁ copy = .ok .supernode := by
  simp only [rootWidens, hpush] at h
  split at h
  · assumption
  · cases h

/-- A tenth point is in a leaf that had two. -/
def packed : Tree Float := ((ofConfig narrow).calls sprawl).2.dropped [6, 1]

/-- That leaf is split, below a root that is a supernode already. -/
def brimming : Tree Float := packed.halved ⟨3⟩

/-- The root grows for the second time, from six to twelve. -/
theorem supernodes_widened_brimming : brimming.Midway narrow ∧
    (brimming.slot brimming.root).leaf = false ∧
    (brimming.slot brimming.root).children.length = 7 ∧
    (brimming.slot brimming.root).capacity = 6 ∧ brimming.stats.supernodeGrowths = 1 ∧
    ∃ t', (TreeM.resolveDirectory brimming.strategy brimming.root).run brimming = .ok () t' ∧
      Widened brimming t' brimming.root ∧ t'.stats.supernodeGrowths = 2 := by
  have hfinite : ∀ v ∈ [(6 : Float), 1], v.isFinite = true := by decide +kernel
  obtain ⟨⟨hlisted, hne, hfull, hleaf⟩, ⟨hdirectory, hlength, hcapacity, hgrowths⟩, hwidens⟩ :
      (⟨3⟩ ∈ (packed.slot packed.root).children ∧ ⟨3⟩ ≠ packed.root ∧
        packed.room (packed.slot ⟨3⟩) < (packed.slot ⟨3⟩).entryCount ∧
          (packed.slot ⟨3⟩).leaf = true) ∧
      ((brimming.slot brimming.root).leaf = false ∧
        (brimming.slot brimming.root).children.length = 7 ∧
          (brimming.slot brimming.root).capacity = 6 ∧ brimming.stats.supernodeGrowths = 1) ∧
      brimming.rootWidens = true := by decide +kernel
  have hasked : packed.Asked narrow ⟨3⟩ :=
    ⟨.dropped rfl sprawl ⟨rfl, hfinite⟩, .single hlisted, hne, hfull⟩
  have hmidway : brimming.Midway narrow := hasked.halved rfl hleaf
  have hone : (brimming.slot brimming.root).children.length =
      (brimming.slot brimming.root).capacity + 1 := by rw [hlength, hcapacity]
  obtain ⟨hroot, -⟩ := supernodes_widened (c := narrow) rfl hmidway
  obtain ⟨copy, t₁, hpush, hwidened⟩ := hroot hdirectory hone
  obtain ⟨t', hrun, hw, hstats⟩ := hwidened (onDirectory_of_rootWidens hwidens hpush)
  have htwo : t'.stats.supernodeGrowths = brimming.stats.supernodeGrowths + 1 := by
    rw [hstats]
  rw [hgrowths] at htwo
  exact ⟨hmidway, hdirectory, hlength, hcapacity, hgrowths, t', hrun, hw, htwo⟩

end Tree

end RTree
