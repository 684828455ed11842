import RTree.Proofs.Tree.Inheritance

namespace RTree

variable {α : Type} [Scalar α]

namespace Tree

structure Collapsed (t t' : Tree α) (only : NodeId) : Prop where
  frame : SameFrame t t'
  stats : t'.stats = t.stats
  tidy : t'.Tidy
  free : t'.free = only :: t.free
  size_arena : t'.arena.size = t.arena.size
  slot_only : t'.slot only = (t.slot only).retire
  slot_root : t'.slot t.root = { t.slot only with parent := none }
  moved : ∀ c ∈ (t.slot only).children, t'.slot c = (t.slot c).withParent t.root
  other : ∀ x, x ≠ only → x ≠ t.root → x ∉ (t.slot only).children → t'.slot x = t.slot x
  copies : ∀ p, t'.copies p = t.copies p

namespace Collapsed

variable {t t' : Tree α} {lev : NodeId → Nat} {only : NodeId} (hs : Collapsed t t' only)
include hs

theorem inherited (h : t.Linked lev []) (hm : (t.slot t.root).children = [only]) :
    Inherited t t' only where
  frame := hs.frame
  tidy := hs.tidy
  slot_id := hs.slot_only
  leaf := by rw [hs.slot_root]
  points := by rw [hs.slot_root]
  children := by rw [hs.slot_root]
  parent := by rw [hs.slot_root, h.root_parent]
  retired := by
    have hroot : (t.slot t.root).retired = false := h.root
    have honly : (t.slot only).retired = false := (h.child t.root only (by simp [hm])).1
    rw [hs.slot_root, hroot, honly]
  moved := hs.moved
  other := hs.other

theorem filled (h : t.Shaped lev none none []) (hm : (t.slot t.root).children = [only]) :
    t'.Filled none none := by
  have honly := (h.linked.child t.root only (by simp [hm])).1
  have hi := hs.inherited h.linked hm
  intro x hx
  obtain ⟨hxu, hxo⟩ := (hi.inUse_iff x).mp hx
  by_cases hr : x = t.root
  · have hfx := h.filled only honly
    have hcount : (t'.slot x).entryCount = (t.slot only).entryCount := by
      rw [hr, hs.slot_root]
      rfl
    refine ⟨?_, ?_, ?_, ?_⟩
    · have hroom : t'.room (t'.slot x) = t.room (t.slot only) := by
        rw [hr, hs.slot_root]
        exact hs.frame.room rfl rfl
      rw [hcount, hroom]
      exact hfx.upper
    · intro hn
      rw [hs.frame.root] at hn
      exact absurd hr hn
    · intro _ hl
      rw [hr, hs.slot_root] at hl
      rw [hcount]
      exact hfx.entryCount_pos h.feasible hl
    · rw [hr, hs.slot_root, hs.frame.config, hs.stats]
      exact hfx.capacity
  · obtain ⟨q, hq⟩ := hi.other_eq hxo hr
    exact (h.filled x hxu).reparented hs.frame (by rw [hs.stats]) hq

/-- The tree loses a level and stays in order. -/
theorem shaped [OrderedScalar α] (h : t.Shaped lev none none [])
    (hm : (t.slot t.root).children = [only]) :
    t'.Shaped (Inherited.levels lev t.root only) none none [] where
  feasible := hs.frame.config ▸ h.feasible
  linked := (hs.inherited h.linked hm).linked h.linked hm
  filled := hs.filled h hm
  fitted := by
    apply (hs.inherited h.linked hm).fitted h hm
    have honly := (h.linked.child t.root only (by simp [hm])).1
    rw [hs.slot_root]
    exact h.fitted.hull only honly (by simp)
  registered := h.registered.congr hs.frame hs.copies

end Collapsed

end Tree

namespace TreeM

open RTree.Tree

variable {t : Tree α} {lev : NodeId → Nat}

/-- One round of `TreeM.collapseRoot`. -/
theorem collapse_ok {only : NodeId} (h : t.Linked lev [])
    (hm : (t.slot t.root).children = [only]) :
    ∃ t₁ t₂ t', (retire only).run t = .ok () t₁ ∧
      (adopt t.root (t.slot only).children).run t₁ = .ok () t₂ ∧
      (modifyNode t.root fun n =>
        { n with
          leaf := (t.slot only).leaf, points := (t.slot only).points,
          children := (t.slot only).children, bound := (t.slot only).bound,
          capacity := (t.slot only).capacity, history := (t.slot only).history }).run t₂ =
        .ok () t' ∧ Collapsed t t' only := by
  have hmem : only ∈ (t.slot t.root).children := by simp [hm]
  have honly := (h.child t.root only hmem).1
  have hrleaf := h.leaf_false_of_mem_children hmem
  have hrpoints : (t.slot t.root).points = [] := (h.oneKind t.root h.root).directory hrleaf
  have hused : (t.slot t.root).retired = false := h.root
  have hs₁ := TakenOver.retireNode h hmem
  obtain ⟨t₂, hrun₂, hs₂⟩ := hs₁.adopt h
  have hroot₂ := hs₂.inUse_root hused
  let takeAll : Node α → Node α := fun n =>
    { n with
      leaf := (t.slot only).leaf, points := (t.slot only).points,
      children := (t.slot only).children, bound := (t.slot only).bound,
      capacity := (t.slot only).capacity, history := (t.slot only).history }
  have hs₃ := hs₂.updateRoot h hmem (h.root_unlisted only) hused (f := takeAll) hused
  refine ⟨t.retireNode only, t₂, t₂.updateNode t.root takeAll, retire_ok honly.lt, hrun₂,
    modifyNode_ok hroot₂.lt takeAll, ?_⟩
  refine
    { frame := hs₃.frame, stats := hs₃.stats, tidy := hs₃.tidy, free := hs₃.free
      size_arena := hs₃.size_arena, slot_only := hs₃.slot_id, slot_root := ?_
      moved := hs₃.moved, other := hs₃.other, copies := ?_ }
  · have hparent : (t.slot t.root).parent = none := h.root_parent
    have hretired : (t.slot t.root).retired = (t.slot only).retired := hused.trans honly.symm
    rw [hs₃.slot_root, ← hparent]
    simp only [takeAll, hretired]
  · intro p
    have hcopies := hs₃.copies p
    have hpoints : (takeAll (t.slot t.root)).points = (t.slot only).points := rfl
    rw [hpoints, hrpoints, List.count_nil] at hcopies
    omega

end TreeM

end RTree
