import RTree.Proofs.Tree.Views

namespace RTree

variable {α : Type}

def Node.withParent (n : Node α) (parent : NodeId) : Node α := { n with parent := some parent }

namespace Tree

structure Adopted (t t' : Tree α) (parent : NodeId) (children : List NodeId) : Prop where
  nodes : NodesOnly t t'
  slot : ∀ x, t'.slot x = if x ∈ children then (t.slot x).withParent parent else t.slot x
  copies : ∀ p, t'.copies p = t.copies p

theorem Adopted.retired {t t' : Tree α} {parent : NodeId} {children : List NodeId}
    (h : Adopted t t' parent children) (x : NodeId) :
    (t'.slot x).retired = (t.slot x).retired := by
  rw [h.slot]
  split <;> rfl

theorem Tidy.adopt {t t' : Tree α} {parent : NodeId} {children : List NodeId} (h : t.Tidy)
    (ha : Adopted t t' parent children) (hu : ∀ c ∈ children, t.InUse c) : t'.Tidy := by
  apply h.of_nodesOnly ha.nodes ha.retired
  intro x hx
  rw [ha.slot, if_neg]
  intro hc
  have hxu : (t.slot x).retired = false := hu x hc
  rw [hxu] at hx
  cases hx

end Tree

namespace TreeM

open RTree.Tree

variable {t : Tree α}

theorem adopt_ok (parent : NodeId) {children : List NodeId}
    (h : ∀ c ∈ children, c.index < t.arena.size) :
    ∃ t', (adopt parent children).run t = .ok () t' ∧ Adopted t t' parent children := by
  induction children generalizing t with
  | nil => exact ⟨t, rfl, .refl t, fun x => by simp, fun _ => rfl⟩
  | cons c cs ih =>
    let t₁ := t.updateNode c fun n => n.withParent parent
    have hc : c.index < t.arena.size := h c (by simp)
    have hs₁ : t₁.slot = Function.update t.slot c ((t.slot c).withParent parent) :=
      slot_updateNode hc _
    have hz : t₁.arena.size = t.arena.size := t.size_arena_updateNode c _
    obtain ⟨t', hrun, ha⟩ := ih (t := t₁) fun d hd => hz ▸ h d (by simp [hd])
    refine ⟨t', ?_, (nodesOnly_updateNode t c _).trans ha.nodes, fun x => ?_, fun p => ?_⟩
    · have : (adopt parent (c :: cs)).run t =
          (modifyNode c (fun n => n.withParent parent) >>= fun _ => adopt parent cs).run t := rfl
      rw [this, bind_ok (modifyNode_ok hc _)]
      exact hrun
    · rw [ha.slot, hs₁]
      by_cases hx : x = c
      · subst hx
        by_cases hm : x ∈ cs <;> simp [hm, Node.withParent]
      · simp [hx]
    · rw [ha.copies]
      exact copies_updateNode_of_eq hc rfl p

end TreeM

namespace Tree

variable [Scalar α]

structure TookOver (t t' : Tree α) (old : Node α) (target : NodeId) (group : List Nat) :
    Prop where
  nodes : NodesOnly t t'
  slot_target : t'.slot target =
    { t.slot target with
      points := (t.slot target).points ++ pick old.points group
      children := (t.slot target).children ++ pick old.children group
      bound := (pick (t.rectsOf old) group).foldl Rectangle.union (t.slot target).bound }
  moved : ∀ c ∈ pick old.children group, t'.slot c = (t.slot c).withParent target
  other : ∀ x, x ≠ target → x ∉ pick old.children group → t'.slot x = t.slot x
  copies : ∀ p, t'.copies p = t.copies p + (pick old.points group).count p

variable {t t' : Tree α} {old : Node α} {target : NodeId} {group : List Nat}

theorem TookOver.bound (h : TookOver t t' old target group) {x : NodeId} (hx : x ≠ target) :
    (t'.slot x).bound = (t.slot x).bound := by
  by_cases hm : x ∈ pick old.children group
  · rw [h.moved x hm]
    rfl
  · rw [h.other x hx hm]

theorem TookOver.rectsOf (h : TookOver t t' old target group) {n : Node α}
    (hn : target ∉ n.children) : t'.rectsOf n = t.rectsOf n := by
  unfold Tree.rectsOf Tree.coordsAt
  rw [h.nodes.frame.store]
  have hc : n.children.map (fun c => (t'.slot c).bound) =
      n.children.map fun c => (t.slot c).bound :=
    List.map_congr_left fun c hc => h.bound fun he => hn (he ▸ hc)
  rw [hc]

theorem TookOver.nil (t : Tree α) (old : Node α) (target : NodeId) :
    TookOver t t old target [] :=
  ⟨.refl t, by simp, fun c hc => by simp at hc, fun _ _ _ => rfl, fun p => by simp⟩

/-- Two groups taken over in turn are one group. -/
theorem TookOver.append {t'' : Tree α} {group' : List Nat} (h : TookOver t t' old target group)
    (h' : TookOver t' t'' old target group') (ht : target ∉ old.children) :
    TookOver t t'' old target (group ++ group') where
  nodes := h.nodes.trans h'.nodes
  slot_target := by
    rw [h'.slot_target, h.slot_target, h.rectsOf ht]
    simp [pick_append, List.foldl_append]
  moved := fun c hc => by
    rw [pick_append, List.mem_append] at hc
    have hne : c ≠ target := fun he => ht (he ▸ hc.elim mem_of_mem_pick mem_of_mem_pick)
    by_cases hc' : c ∈ pick old.children group'
    · rw [h'.moved c hc']
      by_cases hc1 : c ∈ pick old.children group
      · rw [h.moved c hc1]
        rfl
      · rw [h.other c hne hc1]
    · rw [h'.other c hne hc', h.moved c (hc.resolve_right hc')]
  other := fun x hx hm => by
    rw [pick_append, List.mem_append, not_or] at hm
    rw [h'.other x hx hm.2, h.other x hx hm.1]
  copies := fun p => by
    rw [h'.copies, h.copies, pick_append, List.count_append]
    omega

end Tree

namespace TreeM

open RTree.Tree

variable [Scalar α] {t : Tree α} {old : Node α} {target : NodeId}

theorem moveEntry_ok (hk : old.OneKind) (hl : t.Legible old) (ht : target.index < t.arena.size)
    (hc : target ∉ old.children) {entry : Nat} (he : entry < old.entryCount) :
    ∃ t', (moveEntry old target entry).run t = .ok () t' ∧ TookOver t t' old target [entry] := by
  unfold moveEntry
  cases hleaf : old.leaf with
  | true =>
    have he' : entry < old.points.length := by simpa [Node.entryCount, hleaf] using he
    have hp : old.points[entry]? = some old.points[entry] := List.getElem?_eq_getElem he'
    have hs := hl.points _ (List.getElem_mem he')
    have hch : old.children = [] := hk.leaf hleaf
    refine ⟨t.updateNode target (·.addPoint old.points[entry] (t.coordsAt old.points[entry])), ?_,
      nodesOnly_updateNode _ _ _, ?_, fun c hm => ?_, fun x hx _ => ?_, fun p => ?_⟩
    · simp only [if_true, hp]
      rw [bind_ok (getCoords_ok hs), modifyNode_ok ht]
    · rw [slot_updateNode ht, Function.update_self, pick_singleton hp, hch]
      have hr : (t.rectsOf old)[entry]? = some (.ofPoint (t.coordsAt old.points[entry])) := by
        simp [Tree.rectsOf, hleaf, he']
      rw [pick_singleton hr]
      simp [Node.addPoint, Rectangle.insert_eq_union]
    · rw [hch] at hm
      simp at hm
    · rw [slot_updateNode ht, Function.update_of_ne hx]
    · have hn := copies_updateNode ht
        (·.addPoint old.points[entry] (t.coordsAt old.points[entry])) p
      have hpts : ((t.slot target).addPoint old.points[entry]
          (t.coordsAt old.points[entry])).points =
          (t.slot target).points ++ [old.points[entry]] := rfl
      rw [hpts, List.count_append] at hn
      rw [pick_singleton hp]
      omega
  | false =>
    have he' : entry < old.children.length := by simpa [Node.entryCount, hleaf] using he
    have hp : old.children[entry]? = some old.children[entry] := List.getElem?_eq_getElem he'
    have hm := List.getElem_mem he'
    have hs := hl.children _ hm
    have hne : old.children[entry] ≠ target := fun h => hc (h ▸ hm)
    have hpt : old.points = [] := hk.directory hleaf
    let t₁ := t.updateNode target
      (·.addChild old.children[entry] (t.slot old.children[entry]).bound)
    have hz : t₁.arena.size = t.arena.size := t.size_arena_updateNode target _
    have hs₁ : t₁.slot = Function.update t.slot target
        ((t.slot target).addChild old.children[entry] (t.slot old.children[entry]).bound) :=
      slot_updateNode ht _
    have hs₂ : (t₁.updateNode old.children[entry] fun n => n.withParent target).slot =
        Function.update t₁.slot old.children[entry]
          ((t₁.slot old.children[entry]).withParent target) := slot_updateNode (hz ▸ hs) _
    refine ⟨t₁.updateNode old.children[entry] fun n => n.withParent target, ?_,
      (nodesOnly_updateNode _ _ _).trans (nodesOnly_updateNode _ _ _), ?_, fun c hcm => ?_,
      fun x hx hxm => ?_, fun p => ?_⟩
    · simp only [Bool.false_eq_true, if_false, hp]
      rw [bind_ok (getNode_ok hs), bind_ok (modifyNode_ok ht _)]
      exact modifyNode_ok (t := t₁) (hz ▸ hs) _
    · rw [hs₂, Function.update_of_ne hne.symm, hs₁, Function.update_self, pick_singleton hp, hpt]
      have hr : (t.rectsOf old)[entry]? = some (t.slot old.children[entry]).bound := by
        simp [Tree.rectsOf, hleaf, he']
      rw [pick_singleton hr]
      simp [Node.addChild]
    · rw [pick_singleton hp, List.mem_singleton] at hcm
      subst hcm
      rw [hs₂, Function.update_self, hs₁, Function.update_of_ne hne]
    · rw [pick_singleton hp, List.mem_singleton] at hxm
      rw [hs₂, Function.update_of_ne hxm, hs₁, Function.update_of_ne hx]
    · have hs' : old.children[entry].index < t₁.arena.size := hz ▸ hs
      have h2 : (t₁.updateNode old.children[entry] fun n => n.withParent target).copies p =
          t₁.copies p := copies_updateNode_of_eq hs' rfl p
      have h1 : t₁.copies p = t.copies p := copies_updateNode_of_eq ht rfl p
      rw [h2, h1, hpt]
      simp

theorem moveEntries_ok (hk : old.OneKind) (hc : target ∉ old.children) {group : List Nat}
    (hl : t.Legible old) (ht : target.index < t.arena.size)
    (hg : ∀ e ∈ group, e < old.entryCount) :
    ∃ t', (group.forM (moveEntry old target)).run t = .ok () t' ∧
      TookOver t t' old target group := by
  induction group generalizing t with
  | nil => exact ⟨t, rfl, .nil t old target⟩
  | cons e group ih =>
    obtain ⟨t₁, hrun, h₁⟩ := moveEntry_ok hk hl ht hc (hg e (by simp))
    have hl₁ : t₁.Legible old :=
      ⟨h₁.nodes.frame.store ▸ hl.points, h₁.nodes.size_arena ▸ hl.children⟩
    obtain ⟨t', hrun', h'⟩ := ih hl₁ (h₁.nodes.size_arena ▸ ht) fun d hd => hg d (by simp [hd])
    refine ⟨t', ?_, h₁.append h' hc⟩
    have : ((e :: group).forM (moveEntry old target)).run t =
        (moveEntry old target e >>= fun _ => group.forM (moveEntry old target)).run t := rfl
    rw [this, bind_ok hrun]
    exact hrun'

end TreeM

end RTree
