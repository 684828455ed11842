import RTree.Proofs.Runs

namespace RTree

variable {α : Type}

structure Stage (α : Type) where
  before : Tree α
  event : Event α
  after : Tree α

/-- The nodes listed after the step where node `id` was listed before it, and last of all. -/
def Stage.siblings? (s : Stage α) (id : NodeId) : Option (Node α × Node α) := do
  let parent ← (s.before.slot id).parent
  let place ← (s.before.slot parent).children.idxOf? id
  let first ← (s.after.slot parent).children[place]?
  let second ← (s.after.slot parent).children.getLast?
  return (s.after.slot first, s.after.slot second)

/-- The node that is split and the groups that its entries are divided into. -/
def Stage.split? (s : Stage α) : Option (NodeId × Partition α) :=
  match s.event with
  | .splitLeaf id p => some (id, p)
  | .splitDirectory id p => some (id, p)
  | _ => none

def Stage.isDirectorySplit (s : Stage α) : Bool :=
  match s.event with
  | .splitDirectory _ _ => true
  | _ => false

namespace Tree

variable [Scalar α]

/-- The steps on the way from one tree to another, the first one first. -/
inductive Trail (start : Tree α) : List (Stage α) → Tree α → Prop
  | start : Trail start [] start
  | step {stages : List (Stage α)} {t t' : Tree α} {e : Event α} (h : Trail start stages t)
      (hs : Step t e t') : Trail start (stages ++ [⟨t, e, t'⟩]) t'
  | book {stages : List (Stage α)} {t : Tree α} (h : Trail start stages t)
      (store : Array (StoredPoint α)) (size : Nat) : Trail start stages (t.withStore store size)
  | clear {stages : List (Stage α)} {t : Tree α} (h : Trail start stages t) :
      Trail start stages t.clear

variable {start t t' : Tree α} {stages : List (Stage α)} {es : List (Event α)}

theorem Trail.steps (h : Trail start stages t) (hs : Steps t es t') :
    ∃ stages, Trail start stages t' := by
  induction hs generalizing stages with
  | nil => exact ⟨stages, h⟩
  | cons hstep _ ih => exact ih (h.step hstep)

theorem Trail.called {k : Call α} {answer : Answer α} (h : Trail start stages t)
    (hcalled : Called t k answer t') : ∃ stages, Trail start stages t' := by
  cases hcalled with
  | inserted hins =>
    obtain ⟨t₁, flags, hext, -, rfl⟩ := hins.cascade
    obtain ⟨stages', h'⟩ := (h.book _ _).steps hext.steps
    exact ⟨stages', h'.book _ _⟩
  | refused => exact ⟨stages, h⟩
  | removed hrem =>
    obtain ⟨es₁, es₂, t₁, -, hsteps₁, hsteps₂⟩ := hrem.cascade
    obtain ⟨stages₁, h₁⟩ := h.steps hsteps₁
    exact (h₁.book _ _).steps hsteps₂
  | absent => exact ⟨stages, h⟩
  | cleared => exact ⟨stages, h.clear⟩

/-- Every run has a trail. -/
theorem exists_trail [OrderedScalar α] (h : t.Settled) (ks : List (Call α)) :
    ∃ stages, Trail t stages (t.calls ks).2 :=
  calls_induction (P := fun t' => ∃ stages, Trail t stages t')
    (fun _ k hs ⟨_, htrail⟩ => htrail.called (hs.call k).1) h ⟨[], .start⟩ ks

theorem Trail.config (h : Trail start stages t) : t.config = start.config := by
  induction h with
  | start => rfl
  | step _ hs ih => exact hs.frame.config.trans ih
  | book _ _ _ ih => exact ih
  | clear _ ih => exact ih

/-- Each stage of a trail is a step of a tree with the same configuration. -/
theorem Trail.step_of_mem (h : Trail start stages t) :
    ∀ s ∈ stages, s.before.config = start.config ∧ Step s.before s.event s.after := by
  induction h with
  | start => exact fun s hs => absurd hs List.not_mem_nil
  | step htrail hstep ih =>
    intro s hs
    rcases List.mem_append.mp hs with hs | hs
    · exact ih s hs
    · rw [List.mem_singleton.mp hs]
      exact ⟨htrail.config, hstep⟩
  | book _ _ _ ih => exact ih
  | clear _ ih => exact ih

/-- What holds at the start and is kept by each step, by booking and by clearing holds of all trees
on a trail. -/
theorem Trail.invariant {P : Tree α → Prop} (h : Trail start stages t) (hstart : P start)
    (hstep : ∀ t e t', t.config = start.config → Step t e t' → P t → P t')
    (hbook : ∀ t store size, P t → P (withStore t store size))
    (hclear : ∀ t, t.config = start.config → P t → P t.clear) :
    P t ∧ ∀ s ∈ stages, P s.before ∧ P s.after := by
  induction h with
  | start => exact ⟨hstart, fun s hs => absurd hs List.not_mem_nil⟩
  | step htrail hs ih =>
    obtain ⟨hbefore, hstages⟩ := ih
    have hafter := hstep _ _ _ htrail.config hs hbefore
    refine ⟨hafter, fun s hm => ?_⟩
    rcases List.mem_append.mp hm with hm | hm
    · exact hstages s hm
    · rw [List.mem_singleton.mp hm]
      exact ⟨hbefore, hafter⟩
  | book _ _ _ ih => exact ⟨hbook _ _ _ ih.1, ih.2⟩
  | clear htrail ih => exact ⟨hclear _ htrail.config ih.1, ih.2⟩

/-- Outside the quadratic variant every split is a cut along one of the axes. -/
theorem Step.cut [OrderedScalar α] {e : Event α} (h : Step t e t')
    (hv : t.config.variant ≠ .rTree) {id : NodeId} {p : Partition α}
    (he : (⟨t, e, t'⟩ : Stage α).split? = some (id, p)) :
    (p.kind = .minOverlap ∨ p.kind = .margin) ∧ ∃ axis < t.dim, p.axis = some axis := by
  cases h with
  | splitLeaf hover _ _ hd _ _ =>
    cases he
    exact (hover.shaped.cut_onLeaf hover.inUse hover.full hv hd).imp_left .inr
  | splitDirectory hover _ _ hd _ _ =>
    cases he
    exact hover.shaped.cut_onDirectory hover.inUse hover.full hv hd
  | _ => cases he

/-- Where the halves of a node are to be found. -/
theorem Split.siblings? {id parent first second : NodeId} {p : Partition α}
    {keepsHistory : Bool} (h : Split t t' keepsHistory id parent first second p) (e : Event α)
    (hparent : (t.slot id).parent = some parent) :
    (⟨t, e, t'⟩ : Stage α).siblings? id = some (t'.slot first, t'.slot second) := by
  obtain ⟨place, hplace, hlisted⟩ := h.slot_parent
  have hplace' : (t.slot parent).children.idxOf? id = some place := hplace
  have hlt : place < (t.slot parent).children.length := by
    rw [List.idxOf?_eq_some_iff] at hplace'
    exact hplace'.1
  have hchildren : (t'.slot parent).children =
      (t.slot parent).children.set place first ++ [second] := congrArg Node.children hlisted
  unfold Stage.siblings?
  simp only [hparent, hplace', hchildren, Option.bind_eq_bind, Option.bind_some]
  rw [List.getElem?_append_left (by simpa using hlt), List.getElem?_set_self hlt]
  simp

theorem Step.directorySplits {e : Event α} (h : Step t e t') :
    t'.stats.directorySplits = t.stats.directorySplits +
      [(⟨t, e, t'⟩ : Stage α)].countP Stage.isDirectorySplit := by
  cases h with
  | place _ _ _ hs => rw [hs.nodes.stats]; rfl
  | promote _ hs => rw [hs.stats]; rfl
  | splitLeaf _ _ _ _ _ hs => rw [hs.stats, Partition.record_eq]; rfl
  | splitDirectory _ _ _ _ _ hs => rw [hs.stats, Partition.record_eq]; rfl
  | widen => rfl
  | absorb _ _ _ _ hs => rw [hs.stats]; rfl
  | relieve => rfl
  | lift _ _ hs => rw [hs.stats]; rfl
  | reinserted => rfl
  | collapse _ _ hs => rw [hs.stats]; rfl

/-- No directory split escapes the trail. -/
theorem Trail.directorySplits (h : Trail start stages t) :
    t.stats.directorySplits =
      start.stats.directorySplits + stages.countP Stage.isDirectorySplit := by
  induction h with
  | start => rfl
  | step _ hs ih => rw [hs.directorySplits, ih, List.countP_append, Nat.add_assoc]
  | book _ _ _ ih => exact ih
  | clear _ ih => exact ih

end Tree

end RTree
