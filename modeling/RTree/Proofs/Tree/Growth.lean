import RTree.Proofs.Tree.Steps

namespace RTree

variable {α : Type} [Scalar α]

/-- A forced reinsertion leaves enough points in an overfull leaf to fill it. -/
def Config.Roomy (c : Config α) : Prop :=
  c.variant = .rTree ∨ c.reinsertionSize + c.minLeafSize ≤ c.maxLeafSize + 1

instance (c : Config α) : Decidable c.Roomy := inferInstanceAs (Decidable (_ ∨ _))

def Event.resolves : Event α → Bool
  | splitLeaf _ _ | splitDirectory _ _ | widen _ | absorb _ => true
  | _ => false

/-- Whether the event takes part in dealing with an overfull node on the spot. -/
def Event.mends : Event α → Bool
  | promote _ => true
  | e => e.resolves

/-- Unless a forced reinsertion is carried through, overfull nodes are dealt with on the spot. -/
def Mending (es : List (Event α)) : Prop :=
  es.countP Event.endsReinsertion = 0 → ∀ e ∈ es, e.mends = true

omit [Scalar α] in
theorem Event.endsReinsertion_of_resolves {e : Event α} (h : e.resolves = true) :
    e.endsReinsertion = false := by
  cases e with
  | reinserted => cases h
  | _ => rfl

omit [Scalar α] in
theorem Event.mends_of_resolves {e : Event α} (h : e.resolves = true) : e.mends = true := by
  cases e with
  | promote => rfl
  | _ => exact h

omit [Scalar α] in
theorem Mending.cons {e : Event α} {es : List (Event α)} (he : e.mends = true) (h : Mending es) :
    Mending (e :: es) := by
  intro hnone
  rw [List.countP_cons, Nat.add_eq_zero_iff] at hnone
  exact List.forall_mem_cons.mpr ⟨he, h hnone.1⟩

omit [Scalar α] in
/-- The counters that tell how many nodes there are. -/
def Counters.tally (s : Counters α) : Nat × Nat × Nat × Nat :=
  (s.leafSplits, s.directorySplits, s.rootPromotions, s.rootAbsorptions)

namespace Tree

/-- What a tree may become without losing nodes but to others. -/
inductive Grows : Tree α → Tree α → Prop
  | steady {t t' : Tree α} (h : SameLinks t t') (ht : t'.stats.tally = t.stats.tally) : Grows t t'
  | resolve {t t' : Tree α} {e : Event α} (h : Step t e t') (he : e.resolves = true) : Grows t t'
  /-- The only node, a leaf, gets a parent. -/
  | promote {t t' : Tree α} {copy : NodeId} (h : Step t (.promote copy) t')
      (hl : (t.slot t.root).leaf = true) : Grows t t'
  /-- The root is pushed down and its contents are dealt with at once. -/
  | raise {t t₁ t' : Tree α} {copy : NodeId} {e : Event α} (h : Step t (.promote copy) t₁)
      (h' : Step t₁ e t') (he : e.resolves = true) : Grows t t'

abbrev Growth : Tree α → Tree α → Prop := Relation.ReflTransGen Grows

variable {t t' : Tree α} {lev lev' : NodeId → Nat} {id parent : NodeId}

/-- Only one node is overfull at a time. -/
theorem Overfull.unique {other : NodeId} (h : t.Overfull lev id) (h' : t.Overfull lev' other) :
    other = id := by
  by_contra hne
  have hfits := (h.shaped.filled other h'.inUse).upper
  rw [excess_of_ne hne] at hfits
  have hfull := h'.full
  omega

/-- An overfull root is overfull in its new place. -/
theorem Overfull.pushedDown {copy : NodeId} (h : t.Overfull lev t.root)
    (hs : PushedDown t t' copy) :
    t'.Overfull (PushedDown.levels lev t.root copy) copy ∧
      (t'.slot t'.root).children = [copy] ∧ (t'.slot copy).leaf = (t.slot t.root).leaf := by
  have hentries : (t'.slot copy).entryCount = (t.slot t.root).entryCount := by
    rw [hs.slot_copy]
    rfl
  have hroom : t'.room (t'.slot copy) = t.room (t.slot t.root) := by
    rw [hs.slot_copy]
    exact hs.frame.room rfl rfl
  refine ⟨⟨hs.shaped h.shaped h.full, ?_, ?_⟩, ?_, ?_⟩
  · rw [hs.inUse_iff h.shaped.linked]
    exact .inl rfl
  · rw [hentries, hroom]
    exact h.full
  · rw [hs.frame.root, hs.slot_root]
  · rw [hs.slot_copy]
    rfl

/-- The root is a leaf or has two children at least. -/
def Branched (t : Tree α) : Prop :=
  (t.slot t.root).leaf = true ∨ 2 ≤ (t.slot t.root).children.length

instance (t : Tree α) : Decidable t.Branched := inferInstanceAs (Decidable (_ ∨ _))

/-- The only child of the root, if it has but one, is a leaf. -/
def NearlyBranched (t : Tree α) : Prop :=
  t.Branched ∨ ∃ only, (t.slot t.root).children = [only] ∧ (t.slot only).leaf = true

def Crowded (t : Tree α) : Prop :=
  ∃ points : List PointId, points.Nodup ∧ t.config.maxLeafSize < points.length ∧
    ∀ p ∈ points, 0 < t.copies p

omit [Scalar α] in
theorem SameLinks.branched (h : SameLinks t t') (ht : t.Branched) : t'.Branched := by
  unfold Branched
  rw [h.frame.root, h.leaf, h.children]
  exact ht

omit [Scalar α] in
theorem SameLinks.nearlyBranched (h : SameLinks t t') (ht : t.NearlyBranched) :
    t'.NearlyBranched := by
  rcases ht with ht | ⟨only, hm, hl⟩
  · exact .inl (h.branched ht)
  · refine .inr ⟨only, ?_, (h.leaf only).trans hl⟩
    rw [h.frame.root, h.children]
    exact hm

omit [Scalar α] in
theorem Crowded.congr (h : t.Crowded) (hf : t'.config = t.config)
    (hc : ∀ p, t'.copies p = t.copies p) : t'.Crowded := by
  obtain ⟨points, hnodup, hmany, hlisted⟩ := h
  refine ⟨points, hnodup, ?_, fun p hp => ?_⟩
  · rw [hf]
    exact hmany
  · rw [hc]
    exact hlisted p hp

omit [Scalar α] in
/-- With a single leaf there are but two nodes. -/
theorem Linked.eq_root_or_only {only : NodeId} (h : t.Linked lev [])
    (hm : (t.slot t.root).children = [only]) (hl : (t.slot only).leaf = true) {x : NodeId}
    (hx : t.InUse x) : x = t.root ∨ x = only := by
  have honly := (h.child t.root only (by simp [hm])).1
  rcases Relation.ReflTransGen.cases_head (h.below_root hx) with heq | ⟨c, hc, hcx⟩
  · exact .inl heq.symm
  · rw [hm, List.mem_singleton] at hc
    rw [hc] at hcx
    rcases Relation.ReflTransGen.cases_head hcx with heq | ⟨d, hd, -⟩
    · exact .inr heq.symm
    · rw [(h.oneKind only honly).leaf hl] at hd
      cases hd

/-- A single leaf does not hold more points than it may. -/
theorem Sound.branched (h : t.Sound) (hn : t.NearlyBranched) (hc : t.Crowded) : t.Branched := by
  rcases hn with hn | ⟨only, hm, hl⟩
  · exact hn
  · exfalso
    obtain ⟨lev, h⟩ := h
    obtain ⟨points, hnodup, hmany, hlisted⟩ := hc
    have hmem : only ∈ (t.slot t.root).children := by simp [hm]
    have hsub : points ⊆ (t.slot only).points := by
      intro p hp
      obtain ⟨x, hx⟩ := exists_mem_points (hlisted p hp)
      rcases h.linked.eq_root_or_only hm hl (h.linked.inUse_of_mem_points hx) with rfl | rfl
      · have hroot := h.linked.leaf_of_mem_points hx
        rw [h.linked.leaf_false_of_mem_children hmem] at hroot
        cases hroot
      · exact hx
    have hlength := (hnodup.subperm hsub).length_le
    have hfits := (h.filled only (h.linked.child t.root only hmem).1).upper
    unfold Node.entryCount room at hfits
    rw [if_pos hl, if_pos hl, excess_none] at hfits
    omega

/-- A node that is split has left two in its place. -/
theorem Split.length_children {keepsHistory : Bool} {first second : NodeId} {p : Partition α}
    (hs : Split t t' keepsHistory id parent first second p) :
    (t'.slot parent).children.length = (t.slot parent).children.length + 1 := by
  obtain ⟨place, -, hslot⟩ := hs.slot_parent
  rw [hslot]
  simp

/-- A root is left with two children when one is split. -/
theorem Split.branched {keepsHistory : Bool} {first second : NodeId} {p : Partition α}
    (hs : Split t t' keepsHistory id parent first second p)
    (hm : id ∈ (t.slot parent).children) (hroot : parent = t.root) : t'.Branched := by
  have hlength := hs.length_children
  have hpos := List.length_pos_of_mem hm
  right
  rw [hs.frame.root, ← hroot]
  omega

theorem Split.nearlyBranched {keepsHistory : Bool} {first second : NodeId} {p : Partition α}
    (hs : Split t t' keepsHistory id parent first second p) (h : t.Linked lev [])
    (hm : id ∈ (t.slot parent).children) (ht : t.NearlyBranched) : t'.NearlyBranched := by
  by_cases hp : parent = t.root
  · exact .inl (hs.branched hm hp)
  · have hid := (h.child parent id hm).1
    have hroot : t'.slot t.root = t.slot t.root := by
      apply hs.other
      · exact hs.ne_first h.root
      · exact hs.ne_second h.root
      · exact (h.ne_root hm).symm
      · exact Ne.symm hp
      · exact h.root_unlisted id
    unfold NearlyBranched Branched
    rw [hs.frame.root, hroot]
    rcases ht with ht | ⟨only, honly, hl⟩
    · exact .inl ht
    · exfalso
      rcases h.eq_root_or_only honly hl (h.inUse_of_mem_children hm) with heq | rfl
      · exact hp heq
      · rw [h.leaf_false_of_mem_children hm] at hl
        cases hl

theorem Absorbed.two_le (hs : Absorbed t t' id) (h : t.Overfull lev id)
    (hl : (t.slot id).leaf = false) : 2 ≤ (t'.slot t'.root).children.length := by
  obtain ⟨k, capacity, -, -, -, hslot⟩ := hs.slot_root
  have htwo := h.shaped.two_le_entryCount h.inUse h.full
  unfold Node.entryCount at htwo
  rw [hl] at htwo
  rw [hs.frame.root, hslot]
  exact htwo

/-- What resolves the overflow of the only child gives the root two children. -/
theorem Step.branched_of_only {e : Event α} (h : Step t e t') (he : e.resolves = true)
    (hover : t.Overfull lev id) (honly : (t.slot t.root).children = [id]) : t'.Branched := by
  have hmem : id ∈ (t.slot t.root).children := by simp [honly]
  cases h with
  | splitLeaf h _ hm _ _ hs =>
    obtain rfl := hover.unique h
    exact hs.branched hm (hover.shaped.linked.owner_unique hm hmem)
  | splitDirectory h _ hm _ _ hs =>
    obtain rfl := hover.unique h
    exact hs.branched hm (hover.shaped.linked.owner_unique hm hmem)
  | widen h _ _ _ hwide =>
    obtain rfl := hover.unique h
    exact absurd honly hwide
  | absorb h hl _ _ hs => exact .inr (hs.two_le h hl)
  | _ => cases he

/-- A tree that grows does not end up with a chain above directories. -/
theorem Grows.nearlyBranched (h : Grows t t') (ht : t.NearlyBranched) : t'.NearlyBranched := by
  cases h with
  | steady h => exact h.nearlyBranched ht
  | resolve h he =>
    cases h with
    | splitLeaf h _ hm _ _ hs =>
      exact hs.nearlyBranched (h.shaped.linked.congr (sameLinks_updateStats t _)) hm ht
    | splitDirectory h _ hm _ _ hs =>
      exact hs.nearlyBranched (h.shaped.linked.congr (sameLinks_updateStats t _)) hm ht
    | widen h => exact (sameLinks_widenNode h.inUse).nearlyBranched ht
    | absorb h hl _ _ hs => exact .inl (.inr (hs.two_le h hl))
    | _ => cases he
  | promote h hl =>
    cases h with
    | promote hover hs =>
      obtain ⟨-, honly, hleaf⟩ := hover.pushedDown hs
      exact .inr ⟨_, honly, hleaf.trans hl⟩
  | raise h h' he =>
    cases h with
    | promote hover hs =>
      obtain ⟨hover₁, honly, -⟩ := hover.pushedDown hs
      exact .inl (h'.branched_of_only he hover₁ honly)

theorem Growth.nearlyBranched (h : Growth t t') (ht : t.NearlyBranched) : t'.NearlyBranched := by
  induction h with
  | refl => exact ht
  | tail _ hs ih => exact hs.nearlyBranched ih

end Tree

end RTree
