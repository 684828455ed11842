import RTree.Proofs.Tree.Shape
import RTree.Tree.Cascade

namespace RTree

variable {α : Type}

namespace Tree

variable {t t' t'' : Tree α} {lev : NodeId → Nat} {id : NodeId}

/-- Some nodes up to a level have gone out of use, with the points `gone`. -/
structure Pruned (t t' : Tree α) (lev : NodeId → Nat) (level : Nat) (gone : List PointId) :
    Prop where
  frame : SameFrame t t'
  stats : t'.stats = t.stats
  size_arena : t'.arena.size = t.arena.size
  kept : ∀ x, t'.InUse x → t.InUse x ∧ t'.slot x = t.slot x
  above : ∀ x, t.InUse x → level < lev x → t'.InUse x
  copies : ∀ q, t'.copies q + gone.count q = t.copies q

theorem Pruned.refl (t : Tree α) (lev : NodeId → Nat) (level : Nat) : Pruned t t lev level [] :=
  ⟨.refl t, rfl, rfl, fun _ h => ⟨h, rfl⟩, fun _ h _ => h, fun _ => rfl⟩

theorem Pruned.trans {level level' : Nat} {gone gone' : List PointId}
    (h : Pruned t t' lev level gone) (h' : Pruned t' t'' lev level' gone')
    (hl : level' ≤ level) : Pruned t t'' lev level (gone ++ gone') where
  frame := h.frame.trans h'.frame
  stats := h'.stats.trans h.stats
  size_arena := h'.size_arena.trans h.size_arena
  kept := fun x hx => by
    obtain ⟨h1, h2⟩ := h'.kept x hx
    obtain ⟨h3, h4⟩ := h.kept x h1
    exact ⟨h3, h2.trans h4⟩
  above := fun x hx hlx => h'.above x (h.above x hx hlx) (by omega)
  copies := fun q => by
    have h1 := h.copies q
    have h2 := h'.copies q
    rw [List.count_append]
    omega

theorem Pruned.mono {level level' : Nat} {gone : List PointId}
    (h : Pruned t t' lev level gone) (hl : level ≤ level') : Pruned t t' lev level' gone :=
  ⟨h.frame, h.stats, h.size_arena, h.kept, fun x hx hlx => h.above x hx (by omega), h.copies⟩

theorem Linked.perm {adrift adrift' : List NodeId} (h : t.Linked lev adrift)
    (hp : adrift.Perm adrift') : t.Linked lev adrift' where
  tidy := h.tidy
  root := h.root
  root_parent := h.root_parent
  oneKind := h.oneKind
  leaf_iff := h.leaf_iff
  nodup := h.nodup
  child := h.child
  owner := fun x hx hr ha => h.owner x hx hr fun hm => ha (hp.mem_iff.mp hm)
  le_root := h.le_root
  floating := fun x hx => h.floating x (hp.mem_iff.mpr hx)
  nodup_floating := hp.nodup_iff.mp h.nodup_floating

variable [Scalar α]

/-- When a node adrift goes out of use, its children are adrift. -/
theorem Linked.retireNode {rest : List NodeId} (h : t.Linked lev (id :: rest)) :
    (t.retireNode id).Linked lev ((t.slot id).children ++ rest) := by
  obtain ⟨hid, hroot, hunlisted⟩ := h.floating id (by simp)
  have hnd := List.nodup_cons.mp h.nodup_floating
  have huse := inUse_retireNode hid
  have hslot : ∀ x, x ≠ id → (t.retireNode id).slot x = t.slot x := fun x hx => by
    rw [slot_retireNode hid, Function.update_of_ne hx]
  have hnone : ((t.retireNode id).slot id).children = [] := by
    rw [slot_retireNode hid, Function.update_self]
    rfl
  have hlisted : ∀ x c, c ∈ ((t.retireNode id).slot x).children →
      x ≠ id ∧ c ∈ (t.slot x).children := by
    intro x c hc
    by_cases hx : x = id
    · rw [hx, hnone] at hc
      cases hc
    · exact ⟨hx, hslot x hx ▸ hc⟩
  have hne : ∀ x c, c ∈ (t.slot x).children → c ≠ id := fun x c hc he => hunlisted x (he ▸ hc)
  refine
    { tidy := h.tidy.retireNode hid
      root := (huse _).mpr ⟨hroot.symm, h.root⟩
      root_parent := ?_, oneKind := fun x hx => ?_, leaf_iff := fun x hx => ?_
      nodup := fun x => ?_, child := fun x c hc => ?_, owner := fun x hx hr ha => ?_
      le_root := fun x hx => h.le_root x ((huse x).mp hx).2
      floating := fun x hx => ?_, nodup_floating := ?_ }
  · change ((t.retireNode id).slot t.root).parent = none
    rw [hslot _ hroot.symm]
    exact h.root_parent
  · obtain ⟨hxi, hxu⟩ := (huse x).mp hx
    rw [hslot x hxi]
    exact h.oneKind x hxu
  · obtain ⟨hxi, hxu⟩ := (huse x).mp hx
    rw [hslot x hxi]
    exact h.leaf_iff x hxu
  · by_cases hx : x = id
    · rw [hx, hnone]
      exact List.nodup_nil
    · rw [hslot x hx]
      exact h.nodup x
  · obtain ⟨-, hc⟩ := hlisted x c hc
    obtain ⟨hcu, hcp, hcl⟩ := h.child x c hc
    have hci := hne x c hc
    rw [hslot c hci]
    exact ⟨(huse c).mpr ⟨hci, hcu⟩, hcp, hcl⟩
  · rw [List.mem_append, not_or] at ha
    obtain ⟨hxi, hxu⟩ := (huse x).mp hx
    have hxa : x ∉ id :: rest := by
      rw [List.mem_cons, not_or]
      exact ⟨hxi, ha.2⟩
    obtain ⟨y, hy⟩ := h.owner x hxu hr hxa
    have hyi : y ≠ id := by
      intro heq
      subst heq
      exact ha.1 hy
    exact ⟨y, by rw [hslot y hyi]; exact hy⟩
  · rcases List.mem_append.mp hx with hxc | hxr'
    · obtain ⟨hxu, -, -⟩ := h.child id x hxc
      refine ⟨(huse x).mpr ⟨hne id x hxc, hxu⟩, fun he => ?_, fun y hy => ?_⟩
      · exact h.root_unlisted id (show t.root ∈ _ from he ▸ hxc)
      · obtain ⟨hyi, hy⟩ := hlisted y x hy
        exact hyi (h.owner_unique hy hxc)
    · obtain ⟨hxu, hxr, hxn⟩ := h.floating x (List.mem_cons_of_mem _ hxr')
      have hxi : x ≠ id := fun he => hnd.1 (he ▸ hxr')
      exact ⟨(huse x).mpr ⟨hxi, hxu⟩, hxr, fun y hy => hxn y (hlisted y x hy).2⟩
  · refine List.nodup_append.mpr ⟨h.nodup id, hnd.2, fun c hc d hd he => ?_⟩
    exact (h.floating d (List.mem_cons_of_mem _ hd)).2.2 id (he ▸ hc)

theorem pruned_retireNode {rest : List NodeId} (h : t.Linked lev (id :: rest)) :
    Pruned t (t.retireNode id) lev (lev id) (t.slot id).points := by
  obtain ⟨hid, -, -⟩ := h.floating id (by simp)
  refine ⟨sameFrame_retireNode t id, rfl, t.size_arena_updateNode id _, fun x hx => ?_,
    fun x hx hl => ?_, fun q => copies_retireNode hid q⟩
  · obtain ⟨hxi, hxu⟩ := (inUse_retireNode hid x).mp hx
    refine ⟨hxu, ?_⟩
    rw [slot_retireNode hid, Function.update_of_ne hxi]
  · refine (inUse_retireNode hid x).mpr ⟨fun he => ?_, hx⟩
    rw [he] at hl
    omega

end Tree

namespace TreeM

open RTree.Tree

variable [Scalar α] {t : Tree α} {lev : NodeId → Nat}

omit [Scalar α] in
/-- Steps that each take one node adrift away take all of them away. -/
theorem mapM_detach_ok {detach : NodeId → TreeM α (List PointId)} {level : Nat}
    (hd : ∀ (t : Tree α) (c : NodeId) (rest : List NodeId), t.Linked lev (c :: rest) →
      lev c < level → ∃ gone t', (detach c).run t = .ok gone t' ∧ t'.Linked lev rest ∧
        Pruned t t' lev level gone)
    {cs rest : List NodeId} (h : t.Linked lev (cs ++ rest)) (hl : ∀ c ∈ cs, lev c < level) :
    ∃ gone t', (cs.mapM detach).run t = .ok gone t' ∧ t'.Linked lev rest ∧
      Pruned t t' lev level gone.flatten := by
  induction cs generalizing t with
  | nil => exact ⟨[], t, rfl, h, .refl t lev level⟩
  | cons c cs ih =>
    obtain ⟨gone, t₁, hrun₁, h₁, hp₁⟩ := hd t c (cs ++ rest) h (hl c (by simp))
    obtain ⟨gones, t', hrun', h', hp'⟩ := ih h₁ fun d hd => hl d (by simp [hd])
    refine ⟨gone :: gones, t', ?_, h', ?_⟩
    · rw [List.mapM_cons, bind_ok hrun₁, bind_ok hrun']
      rfl
    · rw [List.flatten_cons]
      exact hp₁.trans hp' (le_refl _)

/-- A node adrift goes out of use with all below it, and its points are answered. -/
theorem detachFrom_ok {limit : Nat} {id : NodeId} {rest : List NodeId}
    (h : t.Linked lev (id :: rest)) (hlim : lev id < limit) :
    ∃ gone t', (detachFrom limit id).run t = .ok gone t' ∧ t'.Linked lev rest ∧
      Pruned t t' lev (lev id) gone := by
  induction limit generalizing t id rest with
  | zero => omega
  | succ limit ih =>
    obtain ⟨hid, -, -⟩ := h.floating id (by simp)
    have h₁ : (t.retireNode id).Linked lev ((t.slot id).children.reverse ++ rest) :=
      h.retireNode.perm ((List.reverse_perm _).symm.append_right rest)
    have hl : ∀ c ∈ (t.slot id).children.reverse, lev c < lev id := fun c hc => by
      have := (h.child id c (List.mem_reverse.mp hc)).2.2
      omega
    have hdetach : ∀ (t : Tree α) (c : NodeId) (rest : List NodeId), t.Linked lev (c :: rest) →
        lev c < lev id → ∃ gone t', (detachFrom limit c).run t = .ok gone t' ∧
          t'.Linked lev rest ∧ Pruned t t' lev (lev id) gone := by
      intro t c rest hc hcl
      obtain ⟨gone, t', hrun, h', hp⟩ := ih hc (by omega)
      exact ⟨gone, t', hrun, h', hp.mono (by omega)⟩
    obtain ⟨gone, t', hrun, h', hp⟩ := mapM_detach_ok hdetach h₁ hl
    refine ⟨(t.slot id).points ++ gone.flatten, t', ?_, h',
      (pruned_retireNode h).trans hp (le_refl _)⟩
    unfold detachFrom
    rw [bind_ok (getNode_ok hid.lt), bind_ok (retire_ok hid.lt), bind_ok hrun]
    rfl

end TreeM

namespace Tree

variable {t t' t'' : Tree α} {lev : NodeId → Nat} {id parent : NodeId}

/-- Nodes have gone out of use with the points `orphans`, or have lost children and got other
bounds. -/
structure Condensed (t t' : Tree α) (orphans : List PointId) : Prop where
  frame : SameFrame t t'
  stats : t'.stats = t.stats
  size_arena : t'.arena.size = t.arena.size
  kept : ∀ x, t'.InUse x → t.InUse x ∧
    ∃ cs b, t'.slot x = { t.slot x with children := cs, bound := b }
  copies : ∀ q, t'.copies q + orphans.count q = t.copies q

theorem Condensed.refl (t : Tree α) : Condensed t t [] :=
  ⟨.refl t, rfl, rfl, fun x hx => ⟨hx, (t.slot x).children, (t.slot x).bound, rfl⟩, fun _ => rfl⟩

theorem Condensed.trans {gone gone' : List PointId} (h : Condensed t t' gone)
    (h' : Condensed t' t'' gone') : Condensed t t'' (gone ++ gone') where
  frame := h.frame.trans h'.frame
  stats := h'.stats.trans h.stats
  size_arena := h'.size_arena.trans h.size_arena
  kept := fun x hx => by
    obtain ⟨h1, cs, b, h2⟩ := h'.kept x hx
    obtain ⟨h3, cs', b', h4⟩ := h.kept x h1
    refine ⟨h3, cs, b, ?_⟩
    rw [h2, h4]
  copies := fun q => by
    have h1 := h.copies q
    have h2 := h'.copies q
    rw [List.count_append]
    omega

theorem Condensed.registered [Scalar α] {orphans : List PointId} (hc : Condensed t t' orphans)
    (h : t.Registered) : t'.Registered where
  stored := fun p hp => by
    have := hc.copies p
    rw [hc.frame.store]
    exact h.stored p (by omega)
  copies_le := fun p => by
    have h1 := hc.copies p
    have h2 := h.copies_le p
    omega
  finite := fun p hp => by
    rw [hc.frame.dim, hc.frame.coordsAt]
    exact h.finite p (hc.frame.store ▸ hp)

/-- A node and all below it are out of use. -/
structure Dissolved (t t' : Tree α) (lev : NodeId → Nat) (id parent : NodeId)
    (orphans : List PointId) : Prop where
  frame : SameFrame t t'
  stats : t'.stats = t.stats
  size_arena : t'.arena.size = t.arena.size
  linked : t'.Linked lev []
  slot_parent : t'.slot parent =
    { t.slot parent with children := (t.slot parent).children.erase id }
  kept : ∀ x, x ≠ parent → t'.InUse x → t.InUse x ∧ t'.slot x = t.slot x
  above : ∀ x, t.InUse x → lev id < lev x → t'.InUse x
  copies : ∀ q, t'.copies q + orphans.count q = t.copies q

/-- A child taken off its parent's list is adrift. -/
theorem Linked.unlist (h : t.Linked lev []) (hm : id ∈ (t.slot parent).children)
    (hs : t'.slot = Function.update t.slot parent
      { t.slot parent with children := (t.slot parent).children.erase id })
    (hn : NodesOnly t t') (htidy : t'.Tidy) : t'.Linked lev [id] := by
  obtain ⟨hid, hpar, hlev⟩ := h.child parent id hm
  have hne : id ≠ t.root := h.ne_root hm
  have hsame : ∀ x, ∃ cs, t'.slot x = { t.slot x with children := cs } ∧
      (∀ c ∈ cs, c ∈ (t.slot x).children) ∧ cs.Nodup ∧
      (∀ c, c ≠ id → (c ∈ cs ↔ c ∈ (t.slot x).children)) := by
    intro x
    by_cases hx : x = parent
    · subst hx
      refine ⟨(t.slot x).children.erase id, by rw [hs, Function.update_self],
        fun c hc => List.mem_of_mem_erase hc, (h.nodup x).erase id, fun c hc => ?_⟩
      rw [(h.nodup x).mem_erase_iff]
      simp [hc]
    · exact ⟨(t.slot x).children, by rw [hs, Function.update_of_ne hx], fun _ hc => hc, h.nodup x,
        fun _ _ => Iff.rfl⟩
  have huse : ∀ x, t'.InUse x ↔ t.InUse x := fun x => by
    obtain ⟨cs, hx, -⟩ := hsame x
    unfold InUse
    rw [hx]
  have hunlisted : ∀ y, id ∉ (t'.slot y).children := by
    intro y hy
    by_cases hyp : y = parent
    · rw [hyp, hs, Function.update_self] at hy
      exact ((h.nodup parent).mem_erase_iff.mp hy).1 rfl
    · rw [hs, Function.update_of_ne hyp] at hy
      exact hyp (h.owner_unique hy hm)
  refine
    { tidy := htidy, root := ?_, root_parent := ?_, oneKind := fun x hx => ?_
      leaf_iff := fun x hx => ?_, nodup := fun x => ?_, child := fun x c hc => ?_
      owner := fun x hx hr ha => ?_, le_root := fun x hx => ?_
      floating := fun x hx => ?_, nodup_floating := List.nodup_singleton id }
  · rw [hn.frame.root]
    exact (huse _).mpr h.root
  · rw [hn.frame.root]
    obtain ⟨cs, hx, -⟩ := hsame t.root
    rw [hx]
    exact h.root_parent
  · obtain ⟨cs, hcs, hsub, -⟩ := hsame x
    have hk := h.oneKind x ((huse x).mp hx)
    rw [hcs]
    refine ⟨fun hl => ?_, hk.directory⟩
    refine List.eq_nil_iff_forall_not_mem.mpr fun c hc => ?_
    have := hsub c hc
    rw [hk.leaf hl] at this
    cases this
  · obtain ⟨cs, hcs, -⟩ := hsame x
    rw [hcs]
    exact h.leaf_iff x ((huse x).mp hx)
  · obtain ⟨cs, hcs, -, hnd, -⟩ := hsame x
    rw [hcs]
    exact hnd
  · obtain ⟨cs, hcs, hsub, -⟩ := hsame x
    rw [hcs] at hc
    obtain ⟨hcu, hcp, hcl⟩ := h.child x c (hsub c hc)
    obtain ⟨ds, hds, -⟩ := hsame c
    refine ⟨(huse c).mpr hcu, ?_, hcl⟩
    rw [hds]
    exact hcp
  · obtain ⟨y, hy⟩ := h.owner x ((huse x).mp hx) (hn.frame.root ▸ hr) (by simp)
    obtain ⟨cs, hcs, -, -, hiff⟩ := hsame y
    refine ⟨y, ?_⟩
    rw [hcs]
    exact (hiff x fun he => ha (by simp [he])).mpr hy
  · rw [hn.frame.root]
    exact h.le_root x ((huse x).mp hx)
  · obtain rfl := List.mem_singleton.mp hx
    exact ⟨(huse x).mpr hid, hn.frame.root ▸ hne, hunlisted⟩

end Tree

namespace Tree

variable {t t' : Tree α} {lev : NodeId → Nat} {id parent : NodeId} {orphans : List PointId}

theorem Filled.mono {extra lack : Option NodeId} (h : t.Filled none none) : t.Filled extra lack :=
  fun x hx => by
    have hx := h x hx
    refine ⟨le_trans hx.upper (by simp), fun hr => le_trans (hx.lower hr) (by simp),
      fun hr hl => lt_of_lt_of_le (hx.root hr hl) (by simp), hx.capacity⟩

/-- A node with enough entries is no exception. -/
theorem Shaped.enough [Scalar α] {loose : List NodeId} (h : t.Shaped lev none (some id) loose)
    (hmany : t.minimumFill (t.slot id) ≤ (t.slot id).entryCount) :
    t.Shaped lev none none loose where
  feasible := h.feasible
  linked := h.linked
  filled := by
    intro x hx
    have hfx := h.filled x hx
    by_cases hxi : x = id
    · subst hxi
      have hmin := minimumFill_pos h.feasible (t.slot x)
      exact ⟨hfx.upper, fun _ => hmany, fun _ _ => Nat.lt_of_lt_of_le hmin hmany, hfx.capacity⟩
    · rw [excess_of_ne hxi] at hfx
      exact hfx
  fitted := h.fitted
  registered := h.registered

namespace Dissolved

variable (hs : Dissolved t t' lev id parent orphans)
include hs

/-- What was dissolved is not in use. -/
theorem not_inUse (h : t.Linked lev []) (hm : id ∈ (t.slot parent).children) : ¬ t'.InUse id := by
  intro hu
  have hne : id ≠ t'.root := fun he =>
    h.root_unlisted parent (show t.root ∈ _ from hs.frame.root ▸ he ▸ hm)
  obtain ⟨y, hy⟩ := hs.linked.owner id hu hne (by simp)
  by_cases hyp : y = parent
  · rw [hyp, hs.slot_parent] at hy
    exact ((h.nodup parent).mem_erase_iff.mp hy).1 rfl
  · rw [(hs.kept y hyp (hs.linked.inUse_of_mem_children hy)).2] at hy
    exact hyp (h.owner_unique hy hm)

theorem condensed (h : t.Linked lev []) (hm : id ∈ (t.slot parent).children) :
    Condensed t t' orphans where
  frame := hs.frame
  stats := hs.stats
  size_arena := hs.size_arena
  kept := fun x hx => by
    by_cases hxp : x = parent
    · subst hxp
      exact ⟨h.inUse_of_mem_children hm, _, (t.slot x).bound, hs.slot_parent⟩
    · obtain ⟨h1, h2⟩ := hs.kept x hxp hx
      exact ⟨h1, (t.slot x).children, (t.slot x).bound, h2⟩
  copies := hs.copies

theorem filled (h : t.Linked lev []) (hm : id ∈ (t.slot parent).children)
    (hf : t.Filled none (some id)) : t'.Filled none (some parent) := by
  have hpleaf := h.leaf_false_of_mem_children hm
  have hgone := hs.not_inUse h hm
  have hne : parent ≠ id := (h.child_ne hm).symm
  intro x hx
  have hxi : x ≠ id := fun he => hgone (he ▸ hx)
  by_cases hxp : x = parent
  · subst hxp
    have hfx := hf x (h.inUse_of_mem_children hm)
    rw [excess_of_ne hne] at hfx
    have hup : (t.slot x).entryCount ≤ t.room (t.slot x) := hfx.upper
    have hcount : (t'.slot x).entryCount + 1 = (t.slot x).entryCount := by
      have hl := List.length_erase_of_mem hm
      have hpos := List.length_pos_of_mem hm
      rw [hs.slot_parent]
      simp only [Node.entryCount, hpleaf, Bool.false_eq_true, if_false]
      omega
    have hroom : t'.room (t'.slot x) = t.room (t.slot x) := by
      rw [hs.slot_parent]
      exact hs.frame.room rfl rfl
    have hmin : t'.minimumFill (t'.slot x) = t.minimumFill (t.slot x) := by
      rw [hs.slot_parent]
      exact hs.frame.minimumFill rfl
    refine ⟨by omega, fun hr => ?_, fun _ _ => by rw [excess_self]; omega, ?_⟩
    · have := hfx.lower (hs.frame.root ▸ hr)
      rw [excess_self]
      omega
    · rw [hs.stats, hs.frame.config, hs.slot_parent]
      exact hfx.capacity
  · obtain ⟨hxu, hslot⟩ := hs.kept x hxp hx
    have hfx := hf x hxu
    rw [excess_of_ne hxi] at hfx
    rw [excess_of_ne hxp]
    exact hfx.congr hs.frame.config (by rw [hs.stats]) (by rw [hs.frame.root]) (by rw [hslot])
      (by rw [hslot]) (by rw [hslot])

variable [Scalar α]

theorem fitted (h : t.Linked lev []) (hm : id ∈ (t.slot parent).children) {rest : List NodeId}
    (hf : t.Fitted (id :: parent :: rest)) : t'.Fitted (parent :: rest) := by
  have hgone := hs.not_inUse h hm
  have hdim := hs.frame.dim
  have hbound : ∀ x, t'.InUse x → t.InUse x ∧ (t'.slot x).bound = (t.slot x).bound := by
    intro x hx
    by_cases hxp : x = parent
    · subst hxp
      rw [hs.slot_parent]
      exact ⟨h.inUse_of_mem_children hm, rfl⟩
    · obtain ⟨h1, h2⟩ := hs.kept x hxp hx
      exact ⟨h1, by rw [h2]⟩
  refine ⟨fun x hx => ?_, fun x hx hl => ?_⟩
  · obtain ⟨hxu, hb⟩ := hbound x hx
    rw [hdim, hb]
    exact hf.proper x hxu
  · have hxi : x ≠ id := fun he => hgone (he ▸ hx)
    have hxp : x ≠ parent := fun he => hl (by simp [he])
    obtain ⟨hxu, hslot⟩ := hs.kept x hxp hx
    have hrects : t'.rectsOf (t'.slot x) = t.rectsOf (t.slot x) := by
      rw [hslot]
      refine rectsOf_congr hs.frame.store fun c hc => (hbound c ?_).2
      exact (hs.linked.child x c (hslot ▸ hc)).1
    rw [hdim, hrects, hslot]
    exact hf.hull x hxu fun hxm => (List.mem_cons.mp hxm).elim hxi hl

/-- Dissolving a node leaves its parent with at most one entry too few. -/
theorem shaped {rest : List NodeId} (hm : id ∈ (t.slot parent).children)
    (h : t.Shaped lev none (some id) (id :: parent :: rest)) :
    t'.Shaped lev none (some parent) (parent :: rest) where
  feasible := hs.frame.config ▸ h.feasible
  linked := hs.linked
  filled := hs.filled h.linked hm h.filled
  fitted := hs.fitted h.linked hm h.fitted
  registered := (hs.condensed h.linked hm).registered h.registered

end Dissolved

end Tree

end RTree
