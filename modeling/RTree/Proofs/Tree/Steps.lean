import RTree.Proofs.Tree.Collapse
import RTree.Proofs.Tree.Decisions
import RTree.Proofs.Tree.Lifting
import RTree.Proofs.Tree.PromotionShape
import RTree.Proofs.Tree.SplitShape

namespace RTree

variable {α : Type}

inductive Event (α : Type) where
  | place (point : PointId) (leaf : NodeId)
  | promote (copy : NodeId)
  | splitLeaf (leaf : NodeId) (p : Partition α)
  | splitDirectory (id : NodeId) (p : Partition α)
  | widen (id : NodeId)
  | absorb (id : NodeId)
  /-- The points of an overfull leaf are to be reinserted. -/
  | relieve (leaf : NodeId) (count : Nat)
  | lift (point : PointId) (orphans : List PointId)
  /-- A forced reinsertion of so many points is over. -/
  | reinserted (count : Nat)
  /-- The root takes the place of its only child. -/
  | collapse (only : NodeId)

def Event.endsReinsertion : Event α → Bool
  | reinserted _ => true
  | _ => false

def Event.reinsertion : Event α → Nat
  | reinserted count => count
  | _ => 0

def Uniform (size : Nat) (es : List (Event α)) : Prop := ∀ n, .reinserted n ∈ es → n = size

namespace Uniform

variable {size : Nat} {e : Event α} {es es' : List (Event α)}

theorem of_noReinsertion (h : es.countP Event.endsReinsertion = 0) : Uniform size es := by
  intro n hn
  exact absurd rfl (List.countP_eq_zero.mp h _ hn)

theorem append (h : Uniform size es) (h' : Uniform size es') : Uniform size (es ++ es') :=
  fun n hn => (List.mem_append.mp hn).elim (h n) (h' n)

theorem cons (he : e.endsReinsertion = false) (h : Uniform size es) : Uniform size (e :: es) := by
  have hone : Uniform size [e] := of_noReinsertion (by simp [he])
  exact hone.append h

theorem of_append (h : Uniform size (es ++ es')) : Uniform size es ∧ Uniform size es' :=
  ⟨fun n hn => h n (List.mem_append_left es' hn), fun n hn => h n (List.mem_append_right es hn)⟩

theorem of_cons (h : Uniform size (e :: es)) : Uniform size [e] ∧ Uniform size es :=
  of_append h

theorem reinsertion_eq (h : Uniform size [e]) :
    e.reinsertion = [e].countP Event.endsReinsertion * size := by
  cases e with
  | reinserted n => exact (h n (List.mem_singleton_self _)).trans (Nat.one_mul size).symm
  | _ => exact (Nat.zero_mul size).symm

end Uniform

variable [Scalar α]

namespace Tree

def countLeafSplit (t : Tree α) : Tree α :=
  t.updateStats fun s => { s with leafSplits := s.leafSplits + 1 }

def countDirectorySplit (t : Tree α) : Tree α :=
  t.updateStats fun s => { s with directorySplits := s.directorySplits + 1 }

def countReinsertion (t : Tree α) (count : Nat) : Tree α :=
  t.updateStats fun s =>
    { s with
      forcedReinsertions := s.forcedReinsertions + 1
      reinsertedPoints := s.reinsertedPoints + count }

/-- The node is the one with too many entries, and all else is in order. -/
structure Overfull (t : Tree α) (lev : NodeId → Nat) (id : NodeId) : Prop where
  shaped : t.Shaped lev (some id) none []
  inUse : t.InUse id
  full : t.room (t.slot id) < (t.slot id).entryCount

inductive Step : Tree α → Event α → Tree α → Prop
  | place {t t' : Tree α} {lev : NodeId → Nat} {id : PointId} {way : List NodeId} {leaf : NodeId}
      (h : t.Shaped lev none none []) (hid : id.index < t.store.size) (hnew : t.copies id = 0)
      (hs : Placed t t' id way leaf) : Step t (.place id leaf) t'
  | promote {t t' : Tree α} {lev : NodeId → Nat} {copy : NodeId} (h : t.Overfull lev t.root)
      (hs : PushedDown t t' copy) : Step t (.promote copy) t'
  | splitLeaf {t t' : Tree α} {lev : NodeId → Nat} {leaf parent first second : NodeId}
      {p : Partition α} {flags flags' : LevelFlags} (h : t.Overfull lev leaf)
      (hl : (t.slot leaf).leaf = true) (hm : leaf ∈ (t.slot parent).children)
      (hd : t.strategy.onLeaf t leaf flags = .ok (.partition p, flags'))
      (hb : p.Balanced (t.slot leaf).entryCount (t.minimumFill (t.slot leaf)))
      (hs : Split t.countLeafSplit t' t.strategy.keepsHistory leaf parent first second p) :
      Step t (.splitLeaf leaf p) t'
  | splitDirectory {t t' : Tree α} {lev : NodeId → Nat} {id parent first second : NodeId}
      {p : Partition α} (h : t.Overfull lev id) (hl : (t.slot id).leaf = false)
      (hm : id ∈ (t.slot parent).children) (hd : t.strategy.onDirectory t id = .ok (.partition p))
      (hb : p.Balanced (t.slot id).entryCount (t.minimumFill (t.slot id)))
      (hs : Split t.countDirectorySplit t' t.strategy.keepsHistory id parent first second p) :
      Step t (.splitDirectory id p) t'
  | widen {t : Tree α} {lev : NodeId → Nat} {id parent : NodeId} (h : t.Overfull lev id)
      (hl : (t.slot id).leaf = false) (hm : id ∈ (t.slot parent).children)
      (hd : t.strategy.onDirectory t id = .ok .supernode)
      (honly : (t.slot t.root).children ≠ [id]) : Step t (.widen id) (t.widenNode id)
  | absorb {t t' : Tree α} {lev : NodeId → Nat} {id : NodeId} (h : t.Overfull lev id)
      (hl : (t.slot id).leaf = false) (hm : (t.slot t.root).children = [id])
      (hd : t.strategy.onDirectory t id = .ok .supernode) (hs : Absorbed t t' id) :
      Step t (.absorb id) t'
  | relieve {t : Tree α} {lev : NodeId → Nat} {leaf parent : NodeId} {count : Nat}
      {flags flags' : LevelFlags} (h : t.Overfull lev leaf) (hl : (t.slot leaf).leaf = true)
      (hm : leaf ∈ (t.slot parent).children)
      (hd : t.strategy.onLeaf t leaf flags = .ok (.reinsert count, flags')) :
      Step t (.relieve leaf count) t
  | lift {t t' : Tree α} {lev : NodeId → Nat} {extra : Option NodeId} {p : PointId}
      {orphans : List PointId} (h : t.Shaped lev extra none []) (h' : t'.Sound)
      (hs : Lifted t t' p orphans) : Step t (.lift p orphans) t'
  | reinserted {t : Tree α} (count : Nat) : Step t (.reinserted count) (t.countReinsertion count)
  | collapse {t t' : Tree α} {lev : NodeId → Nat} {only : NodeId} (h : t.Shaped lev none none [])
      (hm : (t.slot t.root).children = [only]) (hs : Collapsed t t' only) :
      Step t (.collapse only) t'

inductive Steps : Tree α → List (Event α) → Tree α → Prop
  | nil {t : Tree α} : Steps t [] t
  | cons {t t' t'' : Tree α} {e : Event α} {es : List (Event α)} (h : Step t e t')
      (hs : Steps t' es t'') : Steps t (e :: es) t''

variable {t t' t'' : Tree α} {e : Event α} {es es' : List (Event α)}

theorem Step.steps (h : Step t e t') : Steps t [e] t' := .cons h .nil

theorem Steps.trans (h : Steps t es t') (h' : Steps t' es' t'') : Steps t (es ++ es') t'' := by
  induction h with
  | nil => exact h'
  | cons hs _ ih => exact .cons hs (ih h')

theorem Step.frame (h : Step t e t') : SameFrame t t' := by
  cases h with
  | place _ _ _ hs => exact hs.nodes.frame
  | promote _ hs => exact hs.frame
  | splitLeaf _ _ _ _ _ hs => exact ⟨hs.frame.config, hs.frame.store, hs.frame.root, hs.frame.size⟩
  | splitDirectory _ _ _ _ _ hs =>
    exact ⟨hs.frame.config, hs.frame.store, hs.frame.root, hs.frame.size⟩
  | widen => exact ⟨rfl, rfl, rfl, rfl⟩
  | absorb _ _ _ _ hs => exact hs.frame
  | relieve => exact .refl t
  | lift _ _ hs => exact hs.frame
  | reinserted => exact sameFrame_updateStats t _
  | collapse _ _ hs => exact hs.frame

theorem Steps.frame (h : Steps t es t') : SameFrame t t' := by
  induction h with
  | nil => exact .refl _
  | cons hs _ ih => exact hs.frame.trans ih

/-- Only an X-tree makes supernodes. -/
theorem Overfull.xTree [OrderedScalar α] {lev : NodeId → Nat} {id : NodeId}
    (h : t.Overfull lev id) (hl : (t.slot id).leaf = false)
    (hd : t.strategy.onDirectory t id = .ok .supernode) : t.config.variant = .xTree := by
  obtain ⟨decision, hd', hfair⟩ := onDirectory_ok h.shaped h.inUse hl h.full
  rw [hd] at hd'
  obtain rfl := Except.ok.inj hd'
  exact hfair

theorem Shaped.updateStats {extra lack : Option NodeId} {loose : List NodeId}
    (h : t.Shaped lev extra lack loose) {f : Counters α → Counters α}
    (hf : (f t.stats).supernodeGrowths = t.stats.supernodeGrowths) :
    (t.updateStats f).Shaped lev extra lack loose where
  feasible := h.feasible
  linked := h.linked.congr (sameLinks_updateStats t f)
  filled := by
    intro x hx
    exact (h.filled x hx).congr rfl (Nat.le_of_eq hf.symm) Iff.rfl rfl rfl rfl
  fitted := ⟨h.fitted.proper, h.fitted.hull⟩
  registered := h.registered.congr (sameFrame_updateStats t f) fun _ => rfl

/-- A step leaves a tree in order but for one node that may be overfull, unless it only counts. -/
theorem Step.shaped_or_counts [OrderedScalar α] (h : Step t e t') :
    (∃ lev extra, t'.Shaped lev extra none []) ∨
      ∃ f : Counters α → Counters α, t' = t.updateStats f ∧
        (f t.stats).supernodeGrowths = t.stats.supernodeGrowths := by
  cases h with
  | place h hid hnew hs => exact .inl ⟨_, _, hs.shaped hid hnew h⟩
  | promote h hs => exact .inl ⟨_, _, hs.shaped h.shaped h.full⟩
  | splitLeaf h _ hm _ hb hs => exact .inl ⟨_, _, hs.shaped hb (h.shaped.updateStats rfl) hm⟩
  | splitDirectory h _ hm _ hb hs =>
    exact .inl ⟨_, _, hs.shaped hb (h.shaped.updateStats rfl) hm⟩
  | widen h hl _ hd => exact .inl ⟨_, _, h.shaped.widenNode h.inUse hl (h.xTree hl hd)⟩
  | absorb h hl hm hd hs => exact .inl ⟨_, _, hs.shaped h.shaped hm hl (h.xTree hl hd)⟩
  | relieve => exact .inr ⟨id, rfl, rfl⟩
  | lift _ h' =>
    obtain ⟨lev, h'⟩ := h'
    exact .inl ⟨lev, none, h'⟩
  | reinserted => exact .inr ⟨_, rfl, rfl⟩
  | collapse h hm hs => exact .inl ⟨_, _, hs.shaped h hm⟩

/-- Only the end of a forced reinsertion is counted as one. -/
theorem Step.forcedReinsertions (h : Step t e t') :
    t'.stats.forcedReinsertions =
      t.stats.forcedReinsertions + [e].countP Event.endsReinsertion := by
  cases h with
  | place _ _ _ hs => rw [hs.nodes.stats]; rfl
  | promote _ hs => rw [hs.stats]; rfl
  | splitLeaf _ _ _ _ _ hs => rw [hs.stats, Partition.record_eq]; rfl
  | splitDirectory _ _ _ _ _ hs => rw [hs.stats, Partition.record_eq]; rfl
  | widen => rfl
  | absorb _ _ _ _ hs => rw [hs.stats]; rfl
  | relieve => rfl
  | lift _ _ hs => rw [hs.stats]; rfl
  | reinserted => rfl
  | collapse _ _ hs => rw [hs.stats]; rfl

theorem Steps.forcedReinsertions (h : Steps t es t') :
    t'.stats.forcedReinsertions =
      t.stats.forcedReinsertions + es.countP Event.endsReinsertion := by
  induction h with
  | nil => rfl
  | @cons _ _ _ e es hs _ ih =>
    rw [ih, hs.forcedReinsertions, Nat.add_assoc, ← List.countP_append]
    rfl

/-- The points of a forced reinsertion are counted when it is over. -/
theorem Step.reinsertedPoints (h : Step t e t') :
    t'.stats.reinsertedPoints = t.stats.reinsertedPoints + e.reinsertion := by
  cases h with
  | place _ _ _ hs => rw [hs.nodes.stats]; rfl
  | promote _ hs => rw [hs.stats]; rfl
  | splitLeaf _ _ _ _ _ hs => rw [hs.stats, Partition.record_eq]; rfl
  | splitDirectory _ _ _ _ _ hs => rw [hs.stats, Partition.record_eq]; rfl
  | widen => rfl
  | absorb _ _ _ _ hs => rw [hs.stats]; rfl
  | relieve => rfl
  | lift _ _ hs => rw [hs.stats]; rfl
  | reinserted => rfl
  | collapse _ _ hs => rw [hs.stats]; rfl

theorem Steps.reinsertedPoints {size : Nat} (h : Steps t es t') (hes : Uniform size es) :
    t'.stats.reinsertedPoints =
      t.stats.reinsertedPoints + es.countP Event.endsReinsertion * size := by
  induction h with
  | nil => simp
  | @cons _ _ _ e es hs _ ih =>
    obtain ⟨he, hrest⟩ := hes.of_cons
    rw [ih hrest, hs.reinsertedPoints, he.reinsertion_eq, Nat.add_assoc, ← Nat.add_mul,
      ← List.countP_append]
    rfl

end Tree

end RTree
