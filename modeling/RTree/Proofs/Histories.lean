import RTree.Proofs.Scalar.Binary64
import RTree.Proofs.Slots
import RTree.Proofs.Tree.Trail

namespace RTree

variable {α : Type}

namespace SplitHistory

/-- The history has a mark for each axis, and bears the mark of its last axis unless it is blank. -/
structure Coherent (h : SplitHistory) (dimension : Nat) : Prop where
  length : h.used.length = dimension
  last : h = blank dimension ∨ h.last < dimension ∧ h.uses h.last = true

structure Adds (h h' : SplitHistory) (axis : Nat) : Prop where
  last : h'.last = axis
  uses : ∀ other, h'.uses other = true ↔ other = axis ∨ h.uses other = true

variable {h : SplitHistory} {dimension axis : Nat}

theorem coherent_blank (dimension : Nat) : (blank dimension).Coherent dimension :=
  ⟨List.length_replicate, .inl rfl⟩

theorem Coherent.adds_extend (hh : h.Coherent dimension) (haxis : axis < dimension) :
    h.Adds (h.extend axis) axis where
  last := rfl
  uses := fun other => by
    rw [uses_extend, hh.length, decide_eq_true haxis, Bool.and_true, Bool.or_eq_true,
      decide_eq_true_iff]
    exact or_congr_left eq_comm

theorem Coherent.extend (hh : h.Coherent dimension) (haxis : axis < dimension) :
    (h.extend axis).Coherent dimension where
  length := by
    rw [← hh.length]
    exact List.length_set
  last := .inr ⟨haxis, ((hh.adds_extend haxis).uses axis).mpr (.inl rfl)⟩

end SplitHistory

/-- If a node is split, then along one of the axes, and both halves have its history with that axis
added. -/
def Stage.HandsOn (s : Stage α) (dimension : Nat) : Prop :=
  ∀ id p, s.split? = some (id, p) → ∃ axis < dimension, p.axis = some axis ∧
    ∃ first second, s.siblings? id = some (first, second) ∧
      (s.before.slot id).history.Adds first.history axis ∧
      (s.before.slot id).history.Adds second.history axis

def Stage.isSplit (s : Stage α) : Bool := s.split?.isSome

namespace Tree

/-- The history of the node is coherent, and blank in a tree that does not write to it. -/
structure Recorded (t : Tree α) (c : Config α) (x : NodeId) : Prop where
  coherent : (t.slot x).history.Coherent c.dimension
  blank : c.variant ≠ .xTree → (t.slot x).history = .blank c.dimension

variable {t t' start : Tree α} {c : Config α} {lev : NodeId → Nat} {id x : NodeId}

theorem Recorded.of_eq {y : NodeId} (h : t.Recorded c y)
    (heq : (t'.slot x).history = (t.slot y).history) : t'.Recorded c x :=
  ⟨heq ▸ h.coherent, heq ▸ h.blank⟩

theorem PushedDown.history {copy : NodeId} (hs : PushedDown t t' copy) (h : t.Linked lev [])
    (hx : t'.InUse x) : ∃ y, t.InUse y ∧ (t'.slot x).history = (t.slot y).history := by
  by_cases hc : x = copy
  · refine ⟨t.root, h.root, ?_⟩
    rw [hc, hs.slot_copy]
    rfl
  · refine ⟨x, ((hs.inUse_iff h x).mp hx).resolve_left hc, ?_⟩
    by_cases hr : x = t.root
    · rw [hr, hs.slot_root]
    · obtain ⟨q, hq⟩ := hs.other_eq hc hr
      rw [hq]

variable [Scalar α]

theorem passOn_eq_extend (hv : t.config.variant = .xTree) {p : Partition α} {axis : Nat}
    (hp : p.axis = some axis) (h : SplitHistory) :
    p.passOn t.strategy.keepsHistory h = h.extend axis := by
  unfold Tree.strategy
  rw [hv]
  unfold Partition.passOn
  rw [hp]
  rfl

theorem passOn_eq_self (hv : t.config.variant ≠ .xTree) (p : Partition α) (h : SplitHistory) :
    p.passOn t.strategy.keepsHistory h = h := by
  unfold Tree.strategy
  cases hvariant : t.config.variant with
  | rTree => rfl
  | rStar => rfl
  | xTree => exact absurd hvariant hv

theorem Split.history {keepsHistory : Bool} {parent first second : NodeId} {p : Partition α}
    (hs : Split t t' keepsHistory id parent first second p)
    (hb : p.Balanced (t.slot id).entryCount (t.minimumFill (t.slot id))) (h : t.Linked lev [])
    (hm : id ∈ (t.slot parent).children) (hx : t'.InUse x) :
    (t'.slot x).history = p.passOn keepsHistory (t.slot id).history ∨
      t.InUse x ∧ (t'.slot x).history = (t.slot x).history := by
  rcases (hs.inUse_iff hb h hm x).mp hx with rfl | rfl | ⟨hxu, hxi⟩
  · rw [hs.slot_first]
    exact .inl rfl
  · rw [hs.slot_second]
    exact .inl rfl
  · refine .inr ⟨hxu, ?_⟩
    by_cases hp : x = parent
    · obtain ⟨place, -, hslot⟩ := hs.slot_parent
      rw [hp, hslot]
    · obtain ⟨q, hq⟩ := hs.other_eq hb (h.oneKind id (h.child parent id hm).1) (hs.ne_first hxu)
        (hs.ne_second hxu) hxi hp
      rw [hq]

/-- The root has the history of the child whose place it takes. -/
theorem Inherited.history (hs : Inherited t t' id) (hid : t.InUse id)
    (hroot : (t'.slot t.root).history = (t.slot id).history) (hx : t'.InUse x) :
    ∃ y, t.InUse y ∧ (t'.slot x).history = (t.slot y).history := by
  obtain ⟨hxu, hxi⟩ := (hs.inUse_iff x).mp hx
  by_cases hr : x = t.root
  · exact ⟨id, hid, hr ▸ hroot⟩
  · obtain ⟨q, hq⟩ := hs.other_eq hxi hr
    refine ⟨x, hxu, ?_⟩
    rw [hq]

variable [OrderedScalar α]

/-- A history after a step is one before it, or in an X-tree one before it with an axis added. -/
theorem Step.history {e : Event α} (h : Step t e t') (hx : t'.InUse x) :
    ∃ y, t.InUse y ∧ ((t'.slot x).history = (t.slot y).history ∨
      t.config.variant = .xTree ∧ ∃ axis < t.dim,
        (t'.slot x).history = (t.slot y).history.extend axis) := by
  -- the halves of a split node, by what the variant passes on
  have hsplit : ∀ {id p}, (⟨t, e, t'⟩ : Stage α).split? = some (id, p) → t.InUse id →
      (t'.slot x).history = p.passOn t.strategy.keepsHistory (t.slot id).history →
      (t'.slot x).history = (t.slot id).history ∨
        t.config.variant = .xTree ∧ ∃ axis < t.dim,
          (t'.slot x).history = (t.slot id).history.extend axis := by
    intro id p he hid hpass
    by_cases hv : t.config.variant = .xTree
    · obtain ⟨-, axis, haxis, hp⟩ := h.cut (by simp [hv]) he
      rw [passOn_eq_extend hv hp] at hpass
      exact .inr ⟨hv, axis, haxis, hpass⟩
    · rw [passOn_eq_self hv] at hpass
      exact .inl hpass
  cases h with
  | place hshaped _ _ hs =>
    obtain ⟨b, ps, hslot, -⟩ := hs.slot_eq x
    rw [hslot]
    exact ⟨x, ((hs.sameLinks hshaped.linked).inUse x).mp hx, .inl rfl⟩
  | promote hover hs =>
    obtain ⟨y, hy, heq⟩ := hs.history hover.shaped.linked hx
    exact ⟨y, hy, .inl heq⟩
  | splitLeaf hover _ hm _ hb hs =>
    rcases hs.history hb (hover.shaped.updateStats rfl).linked hm hx with hpass | ⟨hxu, heq⟩
    · exact ⟨_, hover.inUse, hsplit rfl hover.inUse hpass⟩
    · exact ⟨x, hxu, .inl heq⟩
  | splitDirectory hover _ hm _ hb hs =>
    rcases hs.history hb (hover.shaped.updateStats rfl).linked hm hx with hpass | ⟨hxu, heq⟩
    · exact ⟨_, hover.inUse, hsplit rfl hover.inUse hpass⟩
    · exact ⟨x, hxu, .inl heq⟩
  | @widen _ id _ hover =>
    refine ⟨x, ((sameLinks_widenNode hover.inUse).inUse x).mp hx, .inl ?_⟩
    rw [slot_widenNode hover.inUse]
    by_cases hxi : x = id
    · rw [hxi, Function.update_self]
    · rw [Function.update_of_ne hxi]
  | absorb hover hl hm _ hs =>
    obtain ⟨k, capacity, -, -, -, hroot⟩ := hs.slot_root
    obtain ⟨y, hy, heq⟩ := (hs.inherited hover.shaped.linked hm hl).history hover.inUse
      (by rw [hroot]) hx
    exact ⟨y, hy, .inl heq⟩
  | relieve => exact ⟨x, hx, .inl rfl⟩
  | lift _ _ hs =>
    obtain ⟨hxu, heq, -⟩ := hs.kept x hx
    exact ⟨x, hxu, .inl heq⟩
  | reinserted => exact ⟨x, hx, .inl rfl⟩
  | @collapse _ _ only hshaped hm hs =>
    have honly := (hshaped.linked.child t.root only (by simp [hm])).1
    obtain ⟨y, hy, heq⟩ := (hs.inherited hshaped.linked hm).history honly
      (by rw [hs.slot_root]) hx
    exact ⟨y, hy, .inl heq⟩

/-- Each step keeps to the histories that are possible. -/
theorem Step.recorded {e : Event α} (h : Step t e t') (hc : t.config = c)
    (hr : ∀ x, t.InUse x → t.Recorded c x) : ∀ x, t'.InUse x → t'.Recorded c x := by
  intro x hx
  obtain ⟨y, hy, heq | ⟨hv, axis, haxis, heq⟩⟩ := h.history hx
  · exact (hr y hy).of_eq heq
  · rw [hc] at hv
    have haxis' : axis < c.dimension := hc ▸ haxis
    refine ⟨?_, fun hne => absurd hv hne⟩
    rw [heq]
    exact (hr y hy).coherent.extend haxis'

/-- In an X-tree no split forgets an axis. -/
theorem Step.handsOn {e : Event α} (h : Step t e t') (hv : t.config.variant = .xTree)
    (hr : ∀ x, t.InUse x → t.Recorded t.config x) :
    (⟨t, e, t'⟩ : Stage α).HandsOn t.config.dimension := by
  intro id p he
  obtain ⟨-, axis, haxis, hp⟩ := h.cut (by simp [hv]) he
  obtain ⟨hid, first, second, hsiblings, hfirst, hsecond⟩ : t.InUse id ∧ ∃ first second,
      (⟨t, e, t'⟩ : Stage α).siblings? id = some (first, second) ∧
      first.history = p.passOn t.strategy.keepsHistory (t.slot id).history ∧
      second.history = p.passOn t.strategy.keepsHistory (t.slot id).history := by
    cases h with
    | splitLeaf hover _ hm _ _ hs =>
      cases he
      refine ⟨hover.inUse, _, _, hs.siblings? (.splitLeaf id p)
        (hover.shaped.linked.child _ id hm).2.1, ?_, ?_⟩
      · exact congrArg Node.history hs.slot_first
      · exact congrArg Node.history hs.slot_second
    | splitDirectory hover _ hm _ _ hs =>
      cases he
      refine ⟨hover.inUse, _, _, hs.siblings? (.splitDirectory id p)
        (hover.shaped.linked.child _ id hm).2.1, ?_, ?_⟩
      · exact congrArg Node.history hs.slot_first
      · exact congrArg Node.history hs.slot_second
    | _ => cases he
  have hadds := (hr id hid).coherent.adds_extend haxis
  rw [passOn_eq_extend hv hp] at hfirst hsecond
  exact ⟨axis, haxis, hp, first, second, hsiblings, hfirst ▸ hadds, hsecond ▸ hadds⟩

omit [OrderedScalar α] in
theorem recorded_clear (t : Tree α) : ∀ x, t.clear.InUse x → t.clear.Recorded t.config x := by
  intro ⟨i⟩ hx
  cases i with
  | zero => exact ⟨SplitHistory.coherent_blank _, fun _ => rfl⟩
  | succ i => cases hx

omit [OrderedScalar α] in
theorem Step.splits {e : Event α} (h : Step t e t') :
    t'.stats.leafSplits + t'.stats.directorySplits =
      t.stats.leafSplits + t.stats.directorySplits +
        [(⟨t, e, t'⟩ : Stage α)].countP Stage.isSplit := by
  cases h with
  | place _ _ _ hs => rw [hs.nodes.stats]; rfl
  | promote _ hs => rw [hs.stats]; rfl
  | splitLeaf _ _ _ _ _ hs =>
    rw [hs.stats, Partition.record_eq]
    exact Nat.add_right_comm _ 1 _
  | splitDirectory _ _ _ _ _ hs =>
    rw [hs.stats, Partition.record_eq]
    rfl
  | widen => rfl
  | absorb _ _ _ _ hs => rw [hs.stats]; rfl
  | relieve => rfl
  | lift _ _ hs => rw [hs.stats]; rfl
  | reinserted => rfl
  | collapse _ _ hs => rw [hs.stats]; rfl

omit [OrderedScalar α] in
/-- No split escapes the trail. -/
theorem Trail.splits {stages : List (Stage α)} (h : Trail start stages t) :
    t.stats.leafSplits + t.stats.directorySplits =
      start.stats.leafSplits + start.stats.directorySplits + stages.countP Stage.isSplit := by
  induction h with
  | start => rfl
  | step _ hs ih => rw [hs.splits, ih, List.countP_append, Nat.add_assoc]
  | book _ _ _ ih => exact ih
  | clear _ ih => exact ih

theorem Trail.recorded {stages : List (Stage α)} (h : Trail start stages t)
    (hr : ∀ x, start.InUse x → start.Recorded start.config x) :
    (∀ x, t.InUse x → t.Recorded start.config x) ∧ ∀ s ∈ stages,
      (∀ x, s.before.InUse x → s.before.Recorded start.config x) ∧
        ∀ x, s.after.InUse x → s.after.Recorded start.config x :=
  h.invariant (P := fun t => ∀ x, t.InUse x → t.Recorded start.config x) hr
    (fun _ _ _ hc hs hr => hs.recorded hc hr)
    (fun _ _ _ hr x hx => ⟨(hr x hx).coherent, (hr x hx).blank⟩)
    (fun t hc _ => hc ▸ recorded_clear t)

/-- Every run is a trail of steps, and no split escapes it. On every trail from a new tree the
histories of the nodes in use are coherent before and after each step, and so are those of the nodes
below the root at the end; outside X-trees they are all blank, and in an X-tree every split adds its
axis to the history that both halves get. -/
theorem histories_coherent {t₀ : Tree α} (h : Tree.new c = .ok t₀) :
    (∀ ks, ∃ stages, Trail t₀ stages (t₀.calls ks).2) ∧
      (∀ ks x, (t₀.calls ks).2.Below (t₀.calls ks).2.root x → (t₀.calls ks).2.Recorded c x) ∧
      ∀ stages t, Trail t₀ stages t →
        t.stats.leafSplits + t.stats.directorySplits = stages.countP Stage.isSplit ∧
        ∀ s ∈ stages,
          (∀ x, s.before.InUse x → s.before.Recorded c x) ∧
          (∀ x, s.after.InUse x → s.after.Recorded c x) ∧
          (c.variant = .xTree → s.HandsOn c.dimension) := by
  have hsettled := settled_new h
  obtain ⟨-, rfl⟩ := new_eq_ok.mp h
  have hnew : ∀ x, (ofConfig c).InUse x → (ofConfig c).Recorded c x :=
    fun x hx => (recorded_clear (ofConfig c) x hx).of_eq rfl
  refine ⟨exists_trail hsettled, fun ks x hx => ?_, fun stages t htrail => ⟨?_, ?_⟩⟩
  · obtain ⟨stages, htrail⟩ := exists_trail hsettled ks
    obtain ⟨lev, hs⟩ := (hsettled.calls ks).sound
    exact (htrail.recorded hnew).1 x ((hs.linked.inUse_iff_below x).mpr hx)
  · rw [htrail.splits]
    exact Nat.zero_add _
  · intro s hs
    obtain ⟨hbefore, hafter⟩ := (htrail.recorded hnew).2 s hs
    refine ⟨hbefore, hafter, fun hv => ?_⟩
    obtain ⟨hconfig, hstep⟩ := htrail.step_of_mem s hs
    have hc : s.before.config = c := hconfig
    have hhands := hstep.handsOn (hc ▸ hv) (hc ▸ hbefore)
    rwa [hc] at hhands

/-- An X-tree with leaves and directories for two. -/
def twofold : Config Float :=
  { (default : Config Float) with
    minLeafSize := 1, maxLeafSize := 2, minChildren := 1, maxChildren := 2, variant := .xTree }

/-- Five points in the plane make three splits. A leaf that comes from a split along the second axis
and one along the first has both on record. -/
theorem histories_coherent_plane :
    ∃ t stages, t = ((ofConfig twofold).calls
        [.insert [0, 0], .insert [10, 1], .insert [0, 20], .insert [1, 30], .insert [50, 20]]).2 ∧
      Trail (ofConfig twofold) stages t ∧ stages.countP Stage.isSplit = 3 ∧
      (∀ s ∈ stages, s.HandsOn 2) ∧ t.Recorded twofold ⟨1⟩ ∧
      (t.slot t.root).history = ⟨[false, false], 0⟩ ∧
      (t.slot ⟨1⟩).history = ⟨[true, true], 0⟩ := by
  obtain ⟨hruns, hrecorded, htrails⟩ := histories_coherent (c := twofold) rfl
  obtain ⟨stages, htrail⟩ := hruns
    [.insert [0, 0], .insert [10, 1], .insert [0, 20], .insert [1, 30], .insert [50, 20]]
  obtain ⟨hcount, hstages⟩ := htrails stages _ htrail
  refine ⟨_, stages, rfl, htrail, ?_, fun s hs => (hstages s hs).2.2 rfl,
    hrecorded _ ⟨1⟩ (.tail (b := ⟨5⟩) (.single ?_) ?_), ?_, ?_⟩
  · rw [← hcount]
    decide +kernel
  all_goals decide +kernel

end Tree

end RTree
