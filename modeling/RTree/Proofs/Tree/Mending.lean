import RTree.Proofs.Tree.Growth

/-!
Dealing with an overfull node on the spot changes that node, the one that lists it and slots that
are not in use; other nodes get other parents at most. So when the first overfull node is the leaf
at the end of a way down from the root, what comes of it stays on that way.
-/

namespace RTree

variable {α : Type} [Scalar α]

/-- The node that goes out of use: it is divided, or the root takes its place. -/
def Event.outgoing? : Event α → Option NodeId
  | splitLeaf id _ | splitDirectory id _ | absorb id => some id
  | _ => none

def Event.absorbs : Event α → Bool
  | absorb _ => true
  | _ => false

namespace Tree

/-- The node is as it was, but for its parent. -/
def Kept (t t' : Tree α) (x : NodeId) : Prop := ∃ parent, t'.slot x = { t.slot x with parent }

variable {t t' t'' : Tree α} {lev lev' : NodeId → Nat} {id leaf x : NodeId} {way : List NodeId}
  {e : Event α} {es es' : List (Event α)}

omit [Scalar α] in
theorem Kept.refl (t : Tree α) (x : NodeId) : Kept t t x := ⟨(t.slot x).parent, rfl⟩

omit [Scalar α] in
theorem Kept.trans (h : Kept t t' x) (h' : Kept t' t'' x) : Kept t t'' x := by
  obtain ⟨q, hq⟩ := h
  obtain ⟨q', hq'⟩ := h'
  exact ⟨q', by rw [hq', hq]⟩

omit [Scalar α] in
theorem Kept.inUse (h : Kept t t' x) (hx : t.InUse x) : t'.InUse x := by
  obtain ⟨q, hq⟩ := h
  unfold InUse
  rw [hq]
  exact hx

/-- Beside slots that are not in use, only the overfull node and the one that lists it change in
anything but their parent. -/
theorem Step.kept (h : Step t e t') (he : e.mends = true) :
    ∃ lev id, t.Overfull lev id ∧
      ∀ x, t.InUse x → x ≠ id → id ∉ (t.slot x).children → Kept t t' x := by
  cases h with
  | promote h hs => exact ⟨_, t.root, h, fun x hx hne _ => hs.other_eq (hs.ne_copy hx) hne⟩
  | splitLeaf h _ hm _ hb hs =>
    refine ⟨_, _, h, fun x hx hne hn => ?_⟩
    exact hs.other_eq hb (h.shaped.linked.oneKind _ h.inUse) (hs.ne_first hx) (hs.ne_second hx) hne
      fun heq => hn (heq ▸ hm)
  | splitDirectory h _ hm _ hb hs =>
    refine ⟨_, _, h, fun x hx hne hn => ?_⟩
    exact hs.other_eq hb (h.shaped.linked.oneKind _ h.inUse) (hs.ne_first hx) (hs.ne_second hx) hne
      fun heq => hn (heq ▸ hm)
  | widen h =>
    refine ⟨_, _, h, fun x _ hne _ => ⟨(t.slot x).parent, ?_⟩⟩
    rw [slot_widenNode h.inUse, Function.update_of_ne hne]
  | absorb h hl hm _ hs =>
    refine ⟨_, _, h, fun x _ hne hn => ?_⟩
    have hroot : x ≠ t.root := by
      rintro rfl
      exact hn (by simp [hm])
    exact (hs.inherited h.shaped.linked hm hl).other_eq hne hroot
  | _ => cases he

/-- A node stays in use unless it is the one to go. -/
theorem Step.inUse (h : Step t e t') (he : e.mends = true) (hx : t.InUse x)
    (hout : e.outgoing? ≠ some x) : t'.InUse x := by
  cases h with
  | promote h hs => exact (hs.inUse_iff h.shaped.linked x).mpr (.inr hx)
  | splitLeaf h _ hm _ hb hs =>
    rw [hs.inUse_iff hb (h.shaped.linked.congr (sameLinks_updateStats t _)) hm x]
    exact .inr (.inr ⟨hx, fun heq => hout (heq ▸ rfl)⟩)
  | splitDirectory h _ hm _ hb hs =>
    rw [hs.inUse_iff hb (h.shaped.linked.congr (sameLinks_updateStats t _)) hm x]
    exact .inr (.inr ⟨hx, fun heq => hout (heq ▸ rfl)⟩)
  | widen h => exact ((sameLinks_widenNode h.inUse).inUse x).mpr hx
  | absorb h hl hm _ hs =>
    have hinherited := hs.inherited h.shaped.linked hm hl
    exact (hinherited.inUse_iff x).mpr ⟨hx, fun heq => hout (heq ▸ rfl)⟩
  | _ => cases he

/-- The root does not go, for the one that goes is listed. -/
theorem Step.outgoing_ne_root (h : Step t e t') : e.outgoing? ≠ some t.root := by
  intro hout
  cases h with
  | splitLeaf h _ hm =>
    exact h.shaped.linked.ne_root hm (Option.some.inj hout)
  | splitDirectory h _ hm =>
    exact h.shaped.linked.ne_root hm (Option.some.inj hout)
  | absorb h _ hm =>
    exact h.shaped.linked.ne_root (hm ▸ List.mem_singleton_self _) (Option.some.inj hout)
  | _ => cases hout

/-- Each node that goes is counted as a split or an absorption. -/
theorem Step.outgoing_counted (h : Step t e t') :
    t'.stats.leafSplits + t'.stats.directorySplits + t'.stats.rootAbsorptions =
      t.stats.leafSplits + t.stats.directorySplits + t.stats.rootAbsorptions +
        [e].countP (·.outgoing?.isSome) := by
  cases h with
  | place _ _ _ hs => rw [hs.nodes.stats]; rfl
  | promote _ hs => rw [hs.stats]; rfl
  | splitLeaf _ _ _ _ _ hs =>
    rw [hs.stats, Partition.record_eq]
    change t.stats.leafSplits + 1 + t.stats.directorySplits + t.stats.rootAbsorptions =
      t.stats.leafSplits + t.stats.directorySplits + t.stats.rootAbsorptions + 1
    omega
  | splitDirectory _ _ _ _ _ hs =>
    rw [hs.stats, Partition.record_eq]
    change t.stats.leafSplits + (t.stats.directorySplits + 1) + t.stats.rootAbsorptions =
      t.stats.leafSplits + t.stats.directorySplits + t.stats.rootAbsorptions + 1
    omega
  | widen => rfl
  | absorb _ _ _ _ hs => rw [hs.stats]; rfl
  | relieve => rfl
  | lift _ _ hs => rw [hs.stats]; rfl
  | reinserted => rfl
  | collapse _ _ hs => rw [hs.stats]; rfl

/-- Its bound stays, unless it is the root and takes the place of its child. -/
theorem Step.bound_eq (h : Step t e t') (he : e.mends = true) (hx : t.InUse x)
    (hout : e.outgoing? ≠ some x) (hroot : x = t.root → e.absorbs = false) :
    (t'.slot x).bound = (t.slot x).bound := by
  cases h with
  | promote h hs => exact hs.bound_eq (hs.ne_copy hx)
  | splitLeaf h _ _ _ hb hs =>
    exact hs.bound_eq hb (h.shaped.linked.oneKind _ h.inUse) hx fun heq => hout (heq ▸ rfl)
  | splitDirectory h _ _ _ hb hs =>
    exact hs.bound_eq hb (h.shaped.linked.oneKind _ h.inUse) hx fun heq => hout (heq ▸ rfl)
  | widen h =>
    rw [slot_widenNode h.inUse, Function.update_apply]
    split
    · rename_i heq
      rw [heq]
    · rfl
  | absorb h hl hm _ hs =>
    have hne : x ≠ t.root := fun heq => absurd (hroot heq) (by simp [Event.absorbs])
    obtain ⟨q, hq⟩ := (hs.inherited h.shaped.linked hm hl).other_eq
      (fun heq => hout (heq ▸ rfl)) hne
    rw [hq]
  | _ => cases he

section Bounds

variable [OrderedScalar α]

/-- The bound of a root with one child is that of the child, which is its own when the child is
gone. -/
theorem Absorbed.bound_root (hs : Absorbed t t' id) (h : t.Overfull lev id)
    (hm : (t.slot t.root).children = [id]) :
    Rectangle.IsHull t.dim [(t.slot t.root).bound] (t'.slot t.root).bound := by
  obtain ⟨k, capacity, -, -, -, hslot⟩ := hs.slot_root
  have hmem : id ∈ (t.slot t.root).children := by simp [hm]
  have hrleaf := h.shaped.linked.leaf_false_of_mem_children hmem
  have hnew := Rectangle.isHull_foldl (h.shaped.rectsOf_proper id) (Rectangle.isHull_nil t.dim)
  have hchild := h.shaped.fitted.hull id h.inUse (by simp)
  have hroot := h.shaped.fitted.hull t.root h.shaped.linked.root (by simp)
  have hrects : t.rectsOf (t.slot t.root) = [(t.slot id).bound] := by
    simp [rectsOf, hrleaf, hm]
  rw [hrects] at hroot
  rw [hslot]
  apply hnew.congr
  intro g hg
  have h1 := hchild.within_iff g hg
  have h2 := hroot.within_iff g hg
  simp only [List.mem_singleton, forall_eq, List.nil_append] at h2 ⊢
  exact h1.symm.trans h2.symm

/-- In any case it counts as equal to what it was. -/
theorem Step.bound_hull (h : Step t e t') (he : e.mends = true) (hx : t.InUse x)
    (hout : e.outgoing? ≠ some x) :
    Rectangle.IsHull t.dim [(t.slot x).bound] (t'.slot x).bound := by
  obtain ⟨lev, id, hover, -⟩ := h.kept he
  by_cases hroot : x = t.root → e.absorbs = false
  · rw [h.bound_eq he hx hout hroot]
    exact (hover.shaped.fitted.proper x hx).isHull_singleton
  · obtain ⟨rfl, habsorbs⟩ : x = t.root ∧ e.absorbs ≠ false := by simpa using hroot
    cases h with
    | absorb h _ hm _ hs => exact hs.bound_root h hm
    | _ => exact absurd rfl habsorbs

end Bounds

/-- Overfull nodes have been dealt with on a way: the nodes beside it are kept, the nodes on it that
have not gone have their bounds, and the root has not gone. -/
structure Mended (t t' : Tree α) (way : List NodeId) (es : List (Event α)) : Prop where
  frame : SameFrame t t'
  aside : ∀ x, t.InUse x → x ∉ way → Kept t t' x
  inUse : ∀ x ∈ way, (∀ e ∈ es, e.outgoing? ≠ some x) → t'.InUse x
  bound_hull : ∀ x ∈ way, (∀ e ∈ es, e.outgoing? ≠ some x) →
    Rectangle.IsHull t.dim [(t.slot x).bound] (t'.slot x).bound
  bound_eq : ∀ x ∈ way, (∀ e ∈ es, e.outgoing? ≠ some x) →
    (x = t.root → ∀ e ∈ es, e.absorbs = false) → (t'.slot x).bound = (t.slot x).bound
  root : ∀ e ∈ es, e.outgoing? ≠ some t.root

namespace Mended

theorem refl (h : t.Shaped lev (some leaf) none []) (hway : t.Way t.root leaf way) :
    Mended t t way [] where
  frame := .refl t
  aside := fun x _ _ => .refl t x
  inUse := fun x hx _ => (hway.inUse h.linked h.linked.root x hx).1
  bound_hull := fun x hx _ =>
    (h.fitted.proper x (hway.inUse h.linked h.linked.root x hx).1).isHull_singleton
  bound_eq := fun _ _ _ _ => rfl
  root := List.forall_mem_nil _

/-- A node beside the way has no entry too many, for it had none. -/
theorem not_overfull (hm : Mended t t' way es) (h : t.Shaped lev (some leaf) none [])
    (hleaf : leaf ∈ way) (hx : t.InUse x) (hxw : x ∉ way) : ¬t'.Overfull lev' x := by
  intro hover
  obtain ⟨q, hq⟩ := hm.aside x hx hxw
  have hne : x ≠ leaf := fun heq => hxw (heq ▸ hleaf)
  have hupper := (h.filled x hx).upper
  have hfull := hover.full
  have hroom : t'.room { t.slot x with parent := q } = t.room (t.slot x) := hm.frame.room rfl rfl
  rw [hq, hroom] at hfull
  rw [excess_of_ne hne] at hupper
  exact absurd hfull (Nat.not_lt.mpr hupper)

/-- Nor does it list the one that has. That one was on the way from the first, and the way led to it
through the node that lists it, unless it has come into use since. -/
theorem not_owner (hm : Mended t t' way es) (h : t.Shaped lev (some leaf) none [])
    (hway : t.Way t.root leaf way) (hx : t.InUse x) (hxw : x ∉ way) (hover : t'.Overfull lev' id) :
    id ∉ (t'.slot x).children := by
  intro hlisted
  obtain ⟨q, hq⟩ := hm.aside x hx hxw
  rw [hq] at hlisted
  have hid : t.InUse id := (h.linked.child x id hlisted).1
  have hidw : id ∈ way := by
    by_contra hidw
    exact hm.not_overfull h hway.last_mem hid hidw hover
  exact hxw (hway.owner_mem h.linked h.linked.root hlisted hidw (h.linked.ne_root hlisted))

variable [OrderedScalar α]

theorem step (hm : Mended t t' way es) (h : t.Shaped lev (some leaf) none [])
    (hway : t.Way t.root leaf way) (hs : Step t' e t'') (he : e.mends = true) :
    Mended t t'' way (es ++ [e]) where
  frame := hm.frame.trans hs.frame
  aside := fun x hx hxw => by
    obtain ⟨lev', id, hover, hother⟩ := hs.kept he
    have hkept := hm.aside x hx hxw
    have hne : x ≠ id := by
      rintro rfl
      exact hm.not_overfull h hway.last_mem hx hxw hover
    exact hkept.trans (hother x (hkept.inUse hx) hne (hm.not_owner h hway hx hxw hover))
  inUse := fun x hx hout => by
    rw [List.forall_mem_append, List.forall_mem_singleton] at hout
    exact hs.inUse he (hm.inUse x hx hout.1) hout.2
  bound_hull := fun x hx hout => by
    rw [List.forall_mem_append, List.forall_mem_singleton] at hout
    have hold := hm.bound_hull x hx hout.1
    have hnew := hs.bound_hull he (hm.inUse x hx hout.1) hout.2
    rw [hm.frame.dim] at hnew
    apply hnew.congr
    intro g hg
    have hg' := hold.within_iff g hg
    simpa using hg'
  bound_eq := fun x hx hout hroot => by
    rw [List.forall_mem_append, List.forall_mem_singleton] at hout
    have hold := hm.bound_eq x hx hout.1 fun hr => (List.forall_mem_append.mp (hroot hr)).1
    have hnew := hs.bound_eq he (hm.inUse x hx hout.1) hout.2 fun hr =>
      hroot (hr.trans hm.frame.root) e (by simp)
    exact hnew.trans hold
  root := by
    rw [List.forall_mem_append, List.forall_mem_singleton]
    exact ⟨hm.root, hm.frame.root ▸ hs.outgoing_ne_root⟩

theorem steps (hm : Mended t t' way es) (h : t.Shaped lev (some leaf) none [])
    (hway : t.Way t.root leaf way) (hs : Steps t' es' t'') (hes : ∀ e ∈ es', e.mends = true) :
    Mended t t'' way (es ++ es') := by
  induction hs generalizing es with
  | nil => simpa using hm
  | @cons _ _ _ e es' hstep _ ih =>
    obtain ⟨he, hrest⟩ := List.forall_mem_cons.mp hes
    have hall := ih (hm.step h hway hstep he) hrest
    rwa [List.append_assoc, List.singleton_append] at hall

end Mended

end Tree

end RTree
