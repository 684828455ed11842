import RTree.Proofs.Tree.Inheritance
import RTree.Proofs.Tree.Promotion
import Mathlib.Data.List.Nodup

namespace RTree

namespace Tree

variable {α : Type} {t t' : Tree α} {lev : NodeId → Nat}

namespace PushedDown

variable {copy : NodeId}

/-- The levels after a promotion: the root rises by one, the copy takes its old level. -/
def levels (lev : NodeId → Nat) (root copy : NodeId) : NodeId → Nat :=
  fun x => if x = root then lev root + 1 else if x = copy then lev root else lev x

variable (hs : PushedDown t t' copy)
include hs

theorem ne_copy {x : NodeId} (hx : t.InUse x) : x ≠ copy := fun he => hs.idle (he ▸ hx)

theorem levels_eq (lev : NodeId → Nat) {x : NodeId} (hx : t.InUse x) (hr : x ≠ t.root) :
    levels lev t.root copy x = lev x := by
  simp [levels, hr, hs.ne_copy hx]

omit hs in
theorem levels_root (lev : NodeId → Nat) : levels lev t.root copy t.root = lev t.root + 1 := by
  simp [levels]

theorem levels_copy (lev : NodeId → Nat) (h : t.Linked lev []) :
    levels lev t.root copy copy = lev t.root := by
  simp [levels, (hs.ne_copy h.root).symm]

/-- All other nodes keep everything but their parent. -/
theorem other_eq {x : NodeId} (hc : x ≠ copy) (hr : x ≠ t.root) :
    ∃ q, t'.slot x = { t.slot x with parent := q } := by
  by_cases hm : x ∈ (t.slot t.root).children
  · exact ⟨some copy, hs.moved x hm⟩
  · exact ⟨(t.slot x).parent, hs.other x hc hr hm⟩

theorem inUse_iff (h : t.Linked lev []) (x : NodeId) : t'.InUse x ↔ x = copy ∨ t.InUse x := by
  have hroot := h.root
  by_cases hc : x = copy
  · subst hc
    unfold InUse at hroot ⊢
    simp [hs.slot_copy, Node.withParent, hroot]
  by_cases hr : x = t.root
  · subst hr
    simp only [hc, false_or]
    unfold InUse
    rw [hs.slot_root]
  · obtain ⟨q, hq⟩ := hs.other_eq hc hr
    unfold InUse
    simp [hq, hc]

theorem children_root : (t'.slot t.root).children = [copy] := by rw [hs.slot_root]

theorem children_copy : (t'.slot copy).children = (t.slot t.root).children := by
  rw [hs.slot_copy]
  rfl

theorem child (h : t.Linked lev []) {x c : NodeId} (hc : c ∈ (t'.slot x).children) :
    t'.InUse c ∧ (t'.slot c).parent = some x ∧
      levels lev t.root copy c + 1 = levels lev t.root copy x := by
  by_cases hxc : x = copy
  · rw [hxc] at hc ⊢
    rw [hs.children_copy] at hc
    obtain ⟨hcu, -, hcl⟩ := h.child t.root c hc
    refine ⟨(hs.inUse_iff h c).mpr (.inr hcu), ?_, ?_⟩
    · rw [hs.moved c hc]
      rfl
    · rw [hs.levels_eq lev hcu (h.ne_root hc), hs.levels_copy lev h, hcl]
  by_cases hxr : x = t.root
  · rw [hxr] at hc ⊢
    rw [hs.children_root, List.mem_singleton] at hc
    rw [hc]
    refine ⟨(hs.inUse_iff h copy).mpr (.inl rfl), ?_, ?_⟩
    · rw [hs.slot_copy]
      rfl
    · rw [hs.levels_copy lev h, levels_root lev]
  · obtain ⟨q, hq⟩ := hs.other_eq hxc hxr
    rw [hq] at hc
    obtain ⟨hcu, hcp, hcl⟩ := h.child x c hc
    have hcr : c ≠ t.root := h.ne_root hc
    have hcn : c ∉ (t.slot t.root).children := fun hc' => hxr (h.owner_unique hc hc')
    refine ⟨(hs.inUse_iff h c).mpr (.inr hcu), ?_, ?_⟩
    · rw [hs.other c (hs.ne_copy hcu) hcr hcn]
      exact hcp
    · rw [hs.levels_eq lev hcu hcr, hs.levels_eq lev (h.inUse_of_mem_children hc) hxr]
      exact hcl

theorem owner (h : t.Linked lev []) {x : NodeId} (hx : t'.InUse x) (hr : x ≠ t.root) :
    ∃ y, x ∈ (t'.slot y).children := by
  rcases (hs.inUse_iff h x).mp hx with hxc | hxu
  · refine ⟨t.root, ?_⟩
    rw [hs.children_root, hxc]
    exact List.mem_singleton_self copy
  obtain ⟨y, hy⟩ := h.owner x hxu hr (by simp)
  by_cases hyr : y = t.root
  · refine ⟨copy, ?_⟩
    rw [hs.children_copy, ← hyr]
    exact hy
  · obtain ⟨q, hq⟩ := hs.other_eq (hs.ne_copy (h.inUse_of_mem_children hy)) hyr
    refine ⟨y, ?_⟩
    rw [hq]
    exact hy

theorem linked (h : t.Linked lev []) : t'.Linked (levels lev t.root copy) [] := by
  have hroot := h.root
  have huse := hs.inUse_iff h
  refine
    { tidy := hs.tidy
      root := ?_, root_parent := ?_, oneKind := ?_, leaf_iff := ?_, nodup := ?_
      child := fun x c hc => hs.child h hc
      owner := fun x hx hr _ => hs.owner h hx (hs.frame.root ▸ hr)
      le_root := ?_, floating := by simp, nodup_floating := List.nodup_nil }
  · rw [hs.frame.root]
    exact (huse _).mpr (.inr hroot)
  · rw [hs.frame.root, hs.slot_root]
    exact h.root_parent
  · intro x hx
    rcases (huse x).mp hx with hxc | hxu
    · rw [hxc, hs.slot_copy]
      exact ⟨(h.oneKind _ hroot).leaf, (h.oneKind _ hroot).directory⟩
    by_cases hr : x = t.root
    · rw [hr, hs.slot_root]
      exact ⟨(nomatch ·), fun _ => rfl⟩
    · obtain ⟨q, hq⟩ := hs.other_eq (hs.ne_copy hxu) hr
      rw [hq]
      exact ⟨(h.oneKind x hxu).leaf, (h.oneKind x hxu).directory⟩
  · intro x hx
    rcases (huse x).mp hx with hxc | hxu
    · rw [hxc, hs.slot_copy, hs.levels_copy lev h]
      exact h.leaf_iff _ hroot
    by_cases hr : x = t.root
    · rw [hr, hs.slot_root, levels_root lev]
      simp
    · obtain ⟨q, hq⟩ := hs.other_eq (hs.ne_copy hxu) hr
      rw [hq, hs.levels_eq lev hxu hr]
      exact h.leaf_iff x hxu
  · intro x
    by_cases hxc : x = copy
    · rw [hxc, hs.children_copy]
      exact h.nodup _
    by_cases hr : x = t.root
    · rw [hr, hs.children_root]
      exact List.nodup_singleton copy
    · obtain ⟨q, hq⟩ := hs.other_eq hxc hr
      rw [hq]
      exact h.nodup x
  · intro x hx
    rw [hs.frame.root, levels_root lev]
    rcases (huse x).mp hx with hxc | hxu
    · rw [hxc, hs.levels_copy lev h]
      omega
    by_cases hr : x = t.root
    · rw [hr, levels_root lev]
    · have hle := h.le_root x hxu
      rw [hs.levels_eq lev hxu hr]
      omega

theorem filled (h : t.Linked lev []) (hc : t.config.Feasible)
    (hfull : t.room (t.slot t.root) < (t.slot t.root).entryCount)
    (hf : t.Filled (some t.root) none) : t'.Filled (some copy) none := by
  have hroot := h.root
  have hcr : t.root ≠ copy := hs.ne_copy hroot
  have hold := hf t.root hroot
  have hgrowths : t'.stats.supernodeGrowths = t.stats.supernodeGrowths := by rw [hs.stats]
  intro x hx
  rcases (hs.inUse_iff h x).mp hx with rfl | hxu
  · have hup : (t.slot t.root).entryCount ≤ t.room (t.slot t.root) + 1 := by simpa using hold.upper
    have hcount : (t'.slot x).entryCount = (t.slot t.root).entryCount := by
      rw [hs.slot_copy]
      rfl
    have hroom : t'.room (t'.slot x) = t.room (t.slot t.root) := by
      rw [hs.slot_copy]
      exact hs.frame.room rfl rfl
    have hmin : t'.minimumFill (t'.slot x) = t.minimumFill (t.slot t.root) := by
      rw [hs.slot_copy]
      exact hs.frame.minimumFill rfl
    have hle : t.minimumFill (t.slot t.root) ≤ t.room (t.slot t.root) := by
      have h1 := hc.leaf_halves
      have h2 := hc.minLeafSize_pos
      have h3 := hc.child_halves
      have h4 := hc.minChildren_pos
      have h5 := hold.maxChildren_le
      unfold minimumFill room
      split <;> omega
    refine ⟨by rw [excess_self]; omega, fun _ => by omega,
      fun he => absurd (he.trans hs.frame.root).symm hcr, ?_⟩
    rw [hgrowths, hs.frame.config, hs.slot_copy]
    exact hold.capacity
  · have hxc := hs.ne_copy hxu
    rw [excess_of_ne hxc]
    by_cases hr : x = t.root
    · have hcap := hc.two_le_maxChildren
      rw [hr]
      refine ⟨?_, fun hne => absurd hs.frame.root.symm hne, fun _ _ => ?_, ?_⟩
      · unfold room Node.entryCount
        simp only [hs.slot_root, Bool.false_eq_true, if_false, List.length_singleton]
        omega
      · rw [hs.slot_root]
        simp [Node.entryCount]
      · refine ⟨0, Nat.zero_le _, ?_, fun _ => rfl⟩
        rw [hs.slot_root, hs.frame.config]
        simp
    · have hfx := hf x hxu
      rw [excess_of_ne hr] at hfx
      obtain ⟨q, hq⟩ := hs.other_eq hxc hr
      exact hfx.reparented hs.frame (by omega) hq

theorem bound_eq {x : NodeId} (hx : x ≠ copy) : (t'.slot x).bound = (t.slot x).bound := by
  by_cases hr : x = t.root
  · rw [hr, hs.slot_root]
  · obtain ⟨q, hq⟩ := hs.other_eq hx hr
    rw [hq]

theorem fitted [Scalar α] {extra : Option NodeId} (h : t.Shaped lev extra none []) :
    t'.Fitted [] := by
  have hroot := h.linked.root
  have hdim := hs.frame.dim
  have hcopy_bound : (t'.slot copy).bound = (t.slot t.root).bound := by
    rw [hs.slot_copy]
    rfl
  have hrects : ∀ x y, t.InUse y → (∃ q, t'.slot x = { t.slot y with parent := q }) →
      t'.rectsOf (t'.slot x) = t.rectsOf (t.slot y) := by
    rintro x y hy ⟨q, hq⟩
    rw [hq]
    exact rectsOf_congr hs.frame.store fun c hc =>
      hs.bound_eq (hs.ne_copy (h.linked.child y c hc).1)
  refine ⟨fun x hx => ?_, fun x hx _ => ?_⟩
  · rw [hdim]
    rcases (hs.inUse_iff h.linked x).mp hx with rfl | hxu
    · rw [hcopy_bound]
      exact h.fitted.proper _ hroot
    · rw [hs.bound_eq (hs.ne_copy hxu)]
      exact h.fitted.proper x hxu
  · rw [hdim]
    rcases (hs.inUse_iff h.linked x).mp hx with rfl | hxu
    · rw [hcopy_bound, hrects x t.root hroot ⟨_, hs.slot_copy⟩]
      exact h.fitted.hull _ hroot (by simp)
    · rw [hs.bound_eq (hs.ne_copy hxu)]
      by_cases hr : x = t.root
      · have hone : t'.rectsOf (t'.slot x) = [(t.slot x).bound] := by
          rw [hr, hs.slot_root]
          simp [rectsOf, hcopy_bound]
        rw [hone]
        exact (h.fitted.proper x hxu).isHull_singleton
      · rw [hrects x x hxu (hs.other_eq (hs.ne_copy hxu) hr)]
        exact h.fitted.hull x hxu (by simp)

/-- A promotion hands the root's excess on to the copy. -/
theorem shaped [Scalar α] (h : t.Shaped lev (some t.root) none [])
    (hfull : t.room (t.slot t.root) < (t.slot t.root).entryCount) :
    t'.Shaped (levels lev t.root copy) (some copy) none [] where
  feasible := hs.frame.config ▸ h.feasible
  linked := hs.linked h.linked
  filled := hs.filled h.linked h.feasible hfull h.filled
  fitted := hs.fitted h
  registered := h.registered.congr hs.frame hs.copies

end PushedDown

/-- A capacity that is doubled for as long as more children are there than it admits does not get
beyond the one that they did not keep to. -/
theorem doublings_le {m i j k needed : Nat} (hm : 0 < m) (hneeded : needed ≤ m * 2 ^ i + 1)
    (hleast : 2 * (m * 2 ^ j) * 2 ^ k < 2 * needed) : j + k ≤ i := by
  have hle : m * 2 ^ (j + k) ≤ m * 2 ^ i := by
    rw [Nat.mul_assoc, Nat.mul_assoc, ← Nat.pow_add] at hleast
    omega
  exact (Nat.pow_le_pow_iff_right (by omega : 1 < 2)).mp (Nat.le_of_mul_le_mul_left hle hm)

namespace Absorbed

variable {id : NodeId} [Scalar α] (hs : Absorbed t t' id)
include hs

theorem inherited (h : t.Linked lev []) (hm : (t.slot t.root).children = [id])
    (hleaf : (t.slot id).leaf = false) : Inherited t t' id := by
  have hmem : id ∈ (t.slot t.root).children := by simp [hm]
  have hrleaf := h.leaf_false_of_mem_children hmem
  have hrpoints := (h.oneKind t.root h.root).directory hrleaf
  have hpoints := (h.oneKind id (h.child _ id hmem).1).directory hleaf
  obtain ⟨k, capacity, -, -, -, hslot⟩ := hs.slot_root
  exact
    { frame := hs.frame
      tidy := hs.tidy
      slot_id := hs.slot_id
      leaf := by rw [hslot, hleaf, ← hrleaf]
      points := by rw [hslot, hpoints, ← hrpoints]
      children := by rw [hslot]
      parent := by rw [hslot]
      retired := by rw [hslot]
      moved := hs.moved
      other := hs.other }

theorem filled (h : t.Linked lev []) (hc : t.config.Feasible)
    (hm : (t.slot t.root).children = [id]) (hleaf : (t.slot id).leaf = false)
    (hv : t.config.variant = .xTree) (hf : t.Filled (some id) none) : t'.Filled none none := by
  have hmem : id ∈ (t.slot t.root).children := by simp [hm]
  obtain ⟨hid, -, -⟩ := h.child _ id hmem
  have hroot := h.root
  have hne : t.root ≠ id := (h.ne_root hmem).symm
  have hrleaf := h.leaf_false_of_mem_children hmem
  have hgrowths : t'.stats.supernodeGrowths = t.stats.supernodeGrowths + 1 := by rw [hs.stats]
  obtain ⟨k, capacity, hcapacity, hneed, hk, hslot⟩ := hs.slot_root
  have hold := hf id hid
  have hpos := hold.entryCount_pos hc hleaf
  have hcount : (t.slot id).entryCount = (t.slot id).children.length := by
    simp [Node.entryCount, hleaf]
  have hup : (t.slot id).children.length ≤ (t.slot id).capacity + 1 := by
    have := hold.upper
    simpa [room, hleaf, hcount] using this
  intro x hx
  obtain ⟨hxu, hxi⟩ := ((hs.inherited h hm hleaf).inUse_iff x).mp hx
  have hfx := hf x hxu
  rw [excess_of_ne hxi] at hfx
  by_cases hr : x = t.root
  · have hcount' : (t'.slot x).entryCount = (t.slot id).children.length := by
      rw [hr, hslot]
      simp [Node.entryCount, hrleaf]
    have hroom : t'.room (t'.slot x) = capacity := by
      rw [hr, hslot]
      simp [room, hrleaf]
    refine ⟨by omega, fun hn => absurd (hr.trans hs.frame.root.symm) hn, fun _ _ => by omega, ?_⟩
    obtain ⟨i, hi, hcap, -⟩ := hold.capacity
    obtain ⟨j, hj, hcap', -⟩ := hfx.capacity
    rw [hr] at hcap'
    refine ⟨j + 1 + k, ?_, ?_, ?_⟩
    · -- a second doubling is made only for want of room, so the child had as much
      rw [hgrowths]
      rcases Nat.eq_zero_or_pos k with h0 | h0
      · omega
      · have hlt := hk h0
        rw [hcapacity, hcap'] at hlt
        have hle := doublings_le hc.maxChildren_pos (hcap ▸ hup) hlt
        omega
    · rw [hr, hslot, hs.frame.config, hcapacity, hcap', Nat.pow_add, Nat.pow_succ]
      simp only [Nat.mul_assoc, Nat.mul_left_comm 2]
    · rw [hr, hslot, hs.frame.config]
      rintro (hl | hv')
      · simp [hrleaf] at hl
      · exact absurd hv hv'
  · obtain ⟨q, hq⟩ := (hs.inherited h hm hleaf).other_eq hxi hr
    exact hfx.reparented hs.frame (by omega) hq

/-- An absorption ends an overflow. -/
theorem shaped [OrderedScalar α] (h : t.Shaped lev (some id) none [])
    (hm : (t.slot t.root).children = [id]) (hleaf : (t.slot id).leaf = false)
    (hv : t.config.variant = .xTree) :
    t'.Shaped (Inherited.levels lev t.root id) none none [] where
  feasible := hs.frame.config ▸ h.feasible
  linked := (hs.inherited h.linked hm hleaf).linked h.linked hm
  filled := hs.filled h.linked h.feasible hm hleaf hv h.filled
  fitted := by
    obtain ⟨k, capacity, -, -, -, hslot⟩ := hs.slot_root
    apply (hs.inherited h.linked hm hleaf).fitted h hm
    rw [hslot]
    exact Rectangle.isHull_foldl (h.rectsOf_proper id) (Rectangle.isHull_nil t.dim)
  registered := h.registered.congr hs.frame hs.copies

end Absorbed

section

variable {id : NodeId}

theorem slot_widenNode (hid : t.InUse id) :
    (t.widenNode id).slot =
      Function.update t.slot id { t.slot id with capacity := 2 * (t.slot id).capacity } :=
  slot_updateNode hid.lt _

theorem sameLinks_widenNode (hid : t.InUse id) : SameLinks t (t.widenNode id) :=
  (sameLinks_updateNode hid rfl rfl rfl rfl fun _ => rfl).trans (sameLinks_updateStats _ _)

/-- A node that gets twice the room is no longer overfull. -/
theorem Shaped.widenNode [Scalar α] (h : t.Shaped lev (some id) none []) (hid : t.InUse id)
    (hleaf : (t.slot id).leaf = false) (hv : t.config.variant = .xTree) :
    (t.widenNode id).Shaped lev none none [] := by
  have hslot := slot_widenNode hid
  have hlinks := sameLinks_widenNode hid
  have hsame : ∀ x, ((t.widenNode id).slot x).bound = (t.slot x).bound ∧
      ((t.widenNode id).slot x).points = (t.slot x).points := by
    intro x
    rw [hslot]
    by_cases hxi : x = id
    · subst hxi
      simp
    · simp [hxi]
  have hentries : ∀ x, ((t.widenNode id).slot x).entryCount = (t.slot x).entryCount := by
    intro x
    unfold Node.entryCount
    rw [hlinks.leaf, hlinks.children, (hsame x).2]
  have hrects : ∀ x, (t.widenNode id).rectsOf ((t.widenNode id).slot x) = t.rectsOf (t.slot x) := by
    intro x
    unfold rectsOf coordsAt
    rw [hlinks.leaf, hlinks.children, (hsame x).2, hlinks.frame.store]
    simp only [(hsame _).1]
  refine
    { feasible := h.feasible
      linked := h.linked.congr hlinks
      filled := fun x hx => ?_
      fitted := ⟨fun x hx => ?_, fun x hx hl => ?_⟩
      registered := h.registered.congr ⟨rfl, rfl, rfl, rfl⟩ fun p =>
        copies_updateNode_of_eq hid.lt rfl p }
  · have hxu := (hlinks.inUse x).mp hx
    have hfx := h.filled x hxu
    by_cases hxi : x = id
    · subst hxi
      rw [excess_self] at hfx
      have hup := hfx.upper
      have hcap := hfx.maxChildren_le
      have htwo := h.feasible.two_le_maxChildren
      have hnode : (t.widenNode x).slot x =
          { t.slot x with capacity := 2 * (t.slot x).capacity } := by
        rw [hslot, Function.update_self]
      refine ⟨?_, fun hr => ?_, fun hr hl => ?_, ?_⟩
      · rw [hentries]
        simp only [room, hnode, hleaf, Bool.false_eq_true, if_false] at hup ⊢
        change _ ≤ 2 * (t.slot x).capacity + 0
        omega
      · rw [hentries]
        simp only [minimumFill, hnode]
        exact hfx.lower hr
      · rw [hentries]
        exact hfx.root hr hleaf
      · obtain ⟨k, hk, h1, -⟩ := hfx.capacity
        refine ⟨k + 1, Nat.succ_le_succ hk, ?_, ?_⟩
        · rw [hnode]
          change 2 * (t.slot x).capacity = t.config.maxChildren * 2 ^ (k + 1)
          rw [h1, Nat.pow_succ, Nat.mul_left_comm, Nat.mul_comm 2]
        · rintro (hl | hv')
          · rw [hlinks.leaf, hleaf] at hl
            cases hl
          · exact absurd hv hv'
    · rw [excess_of_ne hxi] at hfx
      refine hfx.congr rfl (Nat.le_succ _) Iff.rfl (hlinks.leaf x) (hentries x) ?_
      rw [hslot, Function.update_of_ne hxi]
  · rw [(hsame x).1]
    exact h.fitted.proper x ((hlinks.inUse x).mp hx)
  · rw [(hsame x).1, hrects]
    exact h.fitted.hull x ((hlinks.inUse x).mp hx) hl

end

end Tree

end RTree
