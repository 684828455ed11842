import RTree.Proofs.Scalar.Rounding
import RTree.Proofs.Split.Finalists
import RTree.Proofs.Split.Scores
import RTree.Proofs.Tree.Trail

namespace RTree

open OrderedScalar
open Scalar (Alike isNumber)

variable {α : Type}

/-- The largest of some values, none of which is negative; zero when there are none. -/
structure Largest [Scalar α] (m : α) (xs : List α) : Prop where
  nonneg : Scalar.zero ≤ m
  le : ∀ x ∈ xs, x ≤ m
  attained : xs = [] ∧ m = Scalar.zero ∨ ∃ x ∈ xs, (x == m) = true

namespace Largest

variable [Scalar α] [OrderedScalar α] {m r x : α} {xs : List α}

theorem nil (h : isNumber (Scalar.zero : α) = true) : Largest (Scalar.zero : α) [] where
  nonneg := Scalar.le_self_iff.mpr h
  le := fun _ hx => absurd hx List.not_mem_nil
  attained := .inl ⟨rfl, rfl⟩

/-- One more value, which counts as equal to `r`. -/
theorem append (h : Largest m xs) (hx : Scalar.zero ≤ x) (hr : (x == r) = true) :
    Largest (Scalar.max m r) (xs ++ [x]) := by
  obtain ⟨hxr, hrx⟩ := beq_iff.mp hr
  have hm : isNumber m = true := (isNumber_of_le h.nonneg).2
  have hrn : isNumber r = true := (isNumber_of_le hxr).2
  have hmax := (Scalar.max_le_iff hm hrn).mp
    (Scalar.le_self_iff.mpr (Scalar.isNumber_max hm hrn))
  refine ⟨le_trans h.nonneg hmax.1, ?_, .inr ?_⟩
  · intro y hy
    rcases List.mem_append.mp hy with hy | hy
    · exact le_trans (h.le y hy) hmax.1
    · rw [List.mem_singleton.mp hy]
      exact le_trans hxr hmax.2
  · by_cases hlt : m < r
    · have heq : Scalar.max m r = r := by simp [Scalar.max, hlt]
      rw [heq]
      exact ⟨x, by simp, hr⟩
    · have heq : Scalar.max m r = m := by simp [Scalar.max, hlt, hm]
      have hrm : r ≤ m := by
        by_contra hn
        exact hlt (lt_iff.mpr ⟨hm, hrn, hn⟩)
      rw [heq]
      rcases h.attained with ⟨-, hzero⟩ | ⟨y, hy, hym⟩
      · exact ⟨x, by simp, beq_iff.mpr ⟨le_trans hxr hrm, hzero ▸ hx⟩⟩
      · exact ⟨y, List.mem_append_left _ hy, hym⟩

/-- A bound on all values is one on the largest. -/
theorem lt {limit : α} (h : Largest m xs) (hzero : Scalar.zero < limit)
    (hxs : ∀ x ∈ xs, x < limit) : m < limit := by
  rcases h.attained with ⟨-, rfl⟩ | ⟨x, hx, heq⟩
  · exact hzero
  · exact Scalar.lt_of_le_of_lt (beq_iff.mp heq).2 (hxs x hx)

end Largest

namespace Stage

/-- The overlap ratio of the two nodes that a directory split has made. -/
def ratio? [Scalar α] (s : Stage α) : Option α :=
  match s.event with
  | .splitDirectory id _ =>
    (s.siblings? id).map fun (first, second) => first.bound.overlapRatio second.bound
  | _ => none

/-- If a directory is split, the two nodes that it makes have the overlap ratio that was scored, and
it is below the limit. -/
def Accepted [Scalar α] (s : Stage α) (limit : α) : Prop :=
  ∀ id p, s.event = .splitDirectory id p → ∃ first second scored,
    s.siblings? id = some (first, second) ∧ p.overlapRatio = some scored ∧
      (first.bound.overlapRatio second.bound == scored) = true ∧
      first.bound.overlapRatio second.bound < limit

end Stage

namespace Tree

variable [Scalar α] {t t' start : Tree α} {id parent first second : NodeId} {p : Partition α}
  {stages : List (Stage α)}

/-- All steps but the splits of directories leave the largest ratio as it is. -/
theorem Step.maxOverlapRatio {e : Event α} (h : Step t e t')
    (he : ∀ id p, e = .splitDirectory id p → p.overlapRatio = none) :
    t'.stats.maxOverlapRatio = t.stats.maxOverlapRatio := by
  cases h with
  | place _ _ _ hs => rw [hs.nodes.stats]
  | promote _ hs => rw [hs.stats]
  | splitLeaf _ _ _ hd _ hs =>
    rw [hs.stats, Partition.record_eq, (blind_onLeaf hd).overlapRatio]
    rfl
  | splitDirectory _ _ _ _ _ hs =>
    rw [hs.stats, Partition.record_eq, he _ _ rfl]
    rfl
  | widen => rfl
  | absorb _ _ _ _ hs => rw [hs.stats]
  | relieve => rfl
  | lift _ _ hs => rw [hs.stats]
  | reinserted => rfl
  | collapse _ _ hs => rw [hs.stats]

variable [SteadyScalar α] {lev : NodeId → Nat}

/-- The nodes that an X-tree splits a directory into have the ratio that was scored. -/
theorem Overfull.accepted {keepsHistory : Bool} (h : t.Overfull lev id)
    (hv : t.config.variant = .xTree) (hd : t.strategy.onDirectory t id = .ok (.partition p))
    (hs : Split t.countDirectorySplit t' keepsHistory id parent first second p) :
    ∃ scored, p.overlapRatio = some scored ∧
      ((t'.slot first).bound.overlapRatio (t'.slot second).bound == scored) = true ∧
      (t'.slot first).bound.overlapRatio (t'.slot second).bound < t.config.maxOverlapRatio := by
  have hsplit : t.overlapSplit id = .ok (.partition p) := by
    unfold Tree.strategy at hd
    rw [hv] at hd
    exact hd
  rw [overlapSplit_eq h.shaped h.inUse] at hsplit
  obtain ⟨b, hb⟩ := exists_accepted (Except.ok.inj hsplit)
  have hratio : p.overlapRatio = some b.cut.overlapRatio := congrArg Partition.overlapRatio hb.eq
  have hfirst : p.first = (b.score.partitionAt b.cut p.kind).first := by
    have heq := congrArg Partition.first hb.eq
    exact heq
  have hsecond : p.second = (b.score.partitionAt b.cut p.kind).second := by
    have heq := congrArg Partition.second hb.eq
    exact heq
  have hboundFirst : (t'.slot first).bound =
      (pick (t.rectsOf (t.slot id)) p.first).foldl Rectangle.union (.empty t.dim) :=
    congrArg Node.bound hs.slot_first
  have hboundSecond : (t'.slot second).bound =
      (pick (t.rectsOf (t.slot id)) p.second).foldl Rectangle.union (.empty t.dim) :=
    congrArg Node.bound hs.slot_second
  have halike := hb.fromSorts.overlapRatio_alike (h.shaped.rectsOf_proper id) p.kind
  rw [← hfirst, ← hsecond, ← hboundFirst, ← hboundSecond] at halike
  have hnumber : isNumber b.cut.overlapRatio = true := (lt_iff.mp hb.below).1
  exact ⟨b.cut.overlapRatio, hratio, Scalar.beq_symm (halike.beq hnumber),
    halike.lt_of_lt (.refl _) hb.below⟩

theorem Step.accepted {e : Event α} (h : Step t e t') (hv : t.config.variant = .xTree) :
    (⟨t, e, t'⟩ : Stage α).Accepted t.config.maxOverlapRatio := by
  intro id p he
  cases h with
  | splitDirectory hover _ hm hd _ hs =>
    cases he
    obtain ⟨scored, hscored⟩ := hover.accepted hv hd hs
    have hparent := (hover.shaped.linked.child _ id hm).2.1
    exact ⟨_, _, scored, hs.siblings? (.splitDirectory id p) hparent, hscored⟩
  | _ => cases he

/-- What is on record is brought up to date by each step. -/
theorem Step.largest {e : Event α} (h : Step t e t') (hv : t.config.variant = .xTree)
    {ratios : List α} (hl : Largest t.stats.maxOverlapRatio ratios) :
    Largest t'.stats.maxOverlapRatio
      (ratios ++ [(⟨t, e, t'⟩ : Stage α)].filterMap Stage.ratio?) := by
  cases e with
  | splitDirectory id p =>
    obtain ⟨n, n', scored, hsiblings, hscored, hbeq, -⟩ := h.accepted hv id p rfl
    have hratio : (⟨t, .splitDirectory id p, t'⟩ : Stage α).ratio? =
        some (n.bound.overlapRatio n'.bound) := by
      simp only [Stage.ratio?, hsiblings, Option.map_some]
    have hrecord : t'.stats.maxOverlapRatio = Scalar.max t.stats.maxOverlapRatio scored := by
      cases h with
      | splitDirectory _ _ _ _ _ hs =>
        rw [hs.stats, Partition.record_eq, hscored]
        rfl
    rw [hrecord, List.filterMap_cons_some hratio, List.filterMap_nil]
    have hnumber := (Scalar.isNumber_of_beq hbeq).1
    exact hl.append (Rectangle.overlapRatio_nonneg _ _ hnumber) hbeq
  | _ =>
    rw [h.maxOverlapRatio (by intro id p he; cases he)]
    show Largest _ (ratios ++ [])
    rw [List.append_nil]
    exact hl

omit [SteadyScalar α] in
/-- The other variants accept no ratios. -/
theorem Trail.maxOverlapRatio (h : Trail start stages t) (hv : start.config.variant ≠ .xTree) :
    t.stats.maxOverlapRatio = start.stats.maxOverlapRatio := by
  induction h with
  | start => rfl
  | @step _ t _ _ htrail hs ih =>
    rw [hs.maxOverlapRatio, ih]
    rintro id p rfl
    cases hs with
    | splitDirectory _ _ _ hd _ _ =>
      exact (blind_onDirectory (htrail.config ▸ hv) hd).overlapRatio
  | book _ _ _ ih => exact ih
  | clear _ ih => exact ih

theorem Trail.accepted (h : Trail start stages t) (hv : start.config.variant = .xTree) :
    ∀ s ∈ stages, s.Accepted start.config.maxOverlapRatio := by
  intro s hs
  obtain ⟨hconfig, hstep⟩ := h.step_of_mem s hs
  rw [← hconfig]
  exact hstep.accepted (hconfig ▸ hv)

theorem Trail.largest (h : Trail start stages t) (hv : start.config.variant = .xTree)
    (hzero : start.stats.maxOverlapRatio = Scalar.zero) :
    Largest t.stats.maxOverlapRatio (stages.filterMap Stage.ratio?) := by
  induction h with
  | start =>
    rw [hzero]
    exact .nil (isNumber_of_le SteadyScalar.zero_le_one).1
  | step htrail hstep ih =>
    rw [List.filterMap_append]
    exact hstep.largest (htrail.config ▸ hv) ih
  | book _ _ _ ih => exact ih
  | clear _ ih => exact ih

/-- Every ratio on a trail is one that was accepted. -/
theorem Trail.ratio_lt (h : Trail start stages t) (hv : start.config.variant = .xTree) :
    ∀ x ∈ stages.filterMap Stage.ratio?, x < start.config.maxOverlapRatio := by
  intro x hx
  obtain ⟨s, hs, hratio⟩ := List.mem_filterMap.mp hx
  have haccepted := h.accepted hv s hs
  unfold Stage.ratio? at hratio
  split at hratio
  · rename_i id p he
    obtain ⟨first, second, scored, hsiblings, -, -, hlt⟩ := haccepted id p he
    rw [hsiblings, Option.map_some] at hratio
    exact Option.some.inj hratio ▸ hlt
  · cases hratio

/-- Every run is a trail of steps. On every trail from a new X-tree the two nodes that a directory
split makes have the ratio that was scored, below the limit, and the largest ratio so far is on
record; trees of the other variants have none on record. -/
theorem ratios_accepted {c : Config α} {t₀ : Tree α} (h : Tree.new c = .ok t₀) :
    (∀ ks, ∃ stages, Trail t₀ stages (t₀.calls ks).2) ∧
      ∀ stages t, Trail t₀ stages t →
        t.stats.directorySplits = stages.countP Stage.isDirectorySplit ∧
        (c.variant = .xTree →
          (∀ s ∈ stages, s.Accepted c.maxOverlapRatio) ∧
          Largest t.stats.maxOverlapRatio (stages.filterMap Stage.ratio?) ∧
          t.stats.maxOverlapRatio < c.maxOverlapRatio) ∧
        (c.variant ≠ .xTree → t.stats.maxOverlapRatio = Scalar.zero) := by
  have hsettled := settled_new h
  obtain ⟨hvalid, rfl⟩ := new_eq_ok.mp h
  refine ⟨exists_trail hsettled, ?_⟩
  intro stages t htrail
  refine ⟨?_, ?_, ?_⟩
  · rw [htrail.directorySplits]
    exact Nat.zero_add _
  · intro hv
    have hlargest := htrail.largest hv rfl
    exact ⟨htrail.accepted hv, hlargest,
      hlargest.lt (Config.portions_of_validate hvalid).2.2.1 (htrail.ratio_lt hv)⟩
  · intro hv
    exact htrail.maxOverlapRatio hv

/-- Four points in a row, in leaves and directories for two, make an X-tree split directories. -/
theorem ratios_accepted_row :
    ∃ t₀ stages, Tree.new { (default : Config Float) with
        dimension := 1, minLeafSize := 1, maxLeafSize := 2, minChildren := 1, maxChildren := 2
        variant := .xTree } = .ok t₀ ∧
      Trail t₀ stages (t₀.calls [.insert [0], .insert [10], .insert [20], .insert [30]]).2 ∧
      0 < stages.countP Stage.isDirectorySplit ∧ (∀ s ∈ stages, s.Accepted (0.2 : Float)) ∧
      Largest
        (t₀.calls [.insert [0], .insert [10], .insert [20], .insert [30]]).2.stats.maxOverlapRatio
        (stages.filterMap Stage.ratio?) := by
  obtain ⟨hruns, htrails⟩ := ratios_accepted
    (c := { (default : Config Float) with
      dimension := 1, minLeafSize := 1, maxLeafSize := 2, minChildren := 1, maxChildren := 2
      variant := .xTree }) rfl
  obtain ⟨stages, htrail⟩ := hruns [.insert [0], .insert [10], .insert [20], .insert [30]]
  obtain ⟨hcount, hx, -⟩ := htrails stages _ htrail
  obtain ⟨haccepted, hlargest, -⟩ := hx rfl
  refine ⟨_, stages, rfl, htrail, ?_, haccepted, hlargest⟩
  rw [← hcount]
  decide +kernel

end Tree

end RTree
