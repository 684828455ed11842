import RTree.Proofs.Split.Optimum
import RTree.Proofs.Split.SharedAxis
import RTree.Proofs.Tree.Decisions

namespace RTree

variable {α : Type} [Scalar α]

def BestCut.beats (b c : BestCut α) : Bool := b.cut.isBetter c.cut

/-- The cuts of the scores along the axis in their order, each with its score. -/
def cutsAlong (axis : Nat) (scores : List (SortScore α)) : List (BestCut α) :=
  scores.flatMap fun s => if s.axis = axis then s.cuts.map (BestCut.mk s) else []

section Along

variable {axis : Nat} {s : SortScore α} {scores : List (SortScore α)}

theorem champion?_candidates (s : SortScore α) :
    champion? BestCut.beats (s.cuts.map (BestCut.mk s)) = s.finalist? :=
  champion?_map BestCut.beats (BestCut.mk s) s.cuts

omit [Scalar α] in
theorem cutsAlong_append_singleton (axis : Nat) (scores : List (SortScore α)) (s : SortScore α) :
    cutsAlong axis (scores ++ [s]) =
      cutsAlong axis scores ++ if s.axis = axis then s.cuts.map (BestCut.mk s) else [] := by
  simp [cutsAlong]

variable [OrderedScalar α]

theorem BestCut.strictOrder_beats : StrictOrder (beats (α := α)) :=
  Cut.strictOrder_isBetter.comap BestCut.cut

omit [OrderedScalar α] in
theorem isNumber_of_mem_cutsAlong (h : ∀ s ∈ scores, s.Numeric) {b : BestCut α}
    (hb : b ∈ cutsAlong axis scores) :
    Scalar.isNumber b.cut.overlap = true ∧ Scalar.isNumber b.cut.area = true := by
  obtain ⟨s, hs, hb⟩ := List.mem_flatMap.mp hb
  split at hb
  · obtain ⟨c, hc, rfl⟩ := List.mem_map.mp hb
    exact (h s hs).cuts c hc
  · cases hb

theorem graded_cutsAlong (axis : Nat) (h : ∀ s ∈ scores, s.Numeric) :
    Graded BestCut.beats (cutsAlong axis scores) := by
  apply Graded.comap (f := BestCut.cut)
  apply Cut.graded_isBetter
  intro c hc
  obtain ⟨b, hb, rfl⟩ := List.mem_map.mp hc
  exact isNumber_of_mem_cutsAlong h hb

/-- One more score. -/
theorem Finalists.overlap_add {f : Finalists α}
    (hg : Graded BestCut.beats (cutsAlong axis (scores ++ [s])))
    (hf : f.overlap = champion? BestCut.beats (cutsAlong axis scores)) :
    (f.add axis s).overlap = champion? BestCut.beats (cutsAlong axis (scores ++ [s])) := by
  rw [cutsAlong_append_singleton] at hg ⊢
  rw [BestCut.strictOrder_beats.champion?_append hg, ← hf]
  by_cases haxis : s.axis = axis
  · rw [if_pos haxis, champion?_candidates]
    cases hbest : s.best? with
    | none => simp [add, SortScore.finalist?, hbest]
    | some cut =>
      cases hold : f.overlap with
      | none => simp [add, SortScore.finalist?, hbest, haxis, hold]
      | some best =>
        simp only [add, SortScore.finalist?, BestCut.beats, hbest, hold, if_pos haxis]
        exact (apply_ite some _ _ _).symm
  · cases hbest : s.best? <;> simp [add, hbest, haxis, champion?]

theorem Finalists.overlap_foldl (axis : Nat) (h : ∀ s ∈ scores, s.Numeric) :
    (scores.foldl (Finalists.add axis) {}).overlap =
      champion? BestCut.beats (cutsAlong axis scores) := by
  induction scores using List.reverseRecOn with
  | nil => rfl
  | append_singleton scores s ih =>
    rw [List.foldl_append]
    exact overlap_add (graded_cutsAlong axis h) (ih fun s hs => h s (List.mem_append_left _ hs))

end Along

/-- The three stages: the cut that `m` is on the sort `s` if it overlaps little, else `o` if that
does, else none. What is returned carries the ratio by which it was accepted. -/
def DirectoryDecision.staged (s : SortScore α) (m : Cut α) (o : BestCut α) (limit : α) :
    DirectoryDecision α :=
  if m.overlapRatio < limit then
    .partition { s.partitionAt m .margin with overlapRatio := some m.overlapRatio }
  else if o.cut.overlapRatio < limit then
    .partition
      { o.score.partitionAt o.cut .minOverlap with overlapRatio := some o.cut.overlapRatio }
  else .supernode

section Decision

variable {rects : List (Rectangle α)} {dimension minimum : Nat}

/-- The cuts along an axis by the low edges and then by the high ones, each with its score. -/
def candidates (rects : List (Rectangle α)) (axis minimum : Nat) : List (BestCut α) :=
  [Edge.low, Edge.high].flatMap fun edge =>
    let score := scoreSort rects axis edge minimum
    score.cuts.map (BestCut.mk score)

omit [Scalar α] in
theorem flatMap_eq_of_nodup {β γ : Type} [DecidableEq β] {xs : List β} {x : β} (hxs : xs.Nodup)
    (hx : x ∈ xs) (f : β → List γ) : (xs.flatMap fun y => if y = x then f y else []) = f x := by
  induction xs with
  | nil => cases hx
  | cons y ys ih =>
    obtain ⟨hy, hys⟩ := List.nodup_cons.mp hxs
    rw [List.flatMap_cons]
    by_cases hyx : y = x
    · have hrest : ys.flatMap (fun y => if y = x then f y else []) = [] := by
        rw [List.flatMap_eq_nil_iff]
        intro z hz
        have hne : z ≠ x := fun hzx => hy (hyx ▸ hzx ▸ hz)
        exact if_neg hne
      rw [hrest, if_pos hyx, hyx, List.append_nil]
    · have hx : x ∈ ys := (List.mem_cons.mp hx).resolve_left fun hxy => hyx hxy.symm
      rw [if_neg hyx, ih hys hx, List.nil_append]

theorem cutsAlong_sorts {axis : Nat} (haxis : axis < dimension) (rects : List (Rectangle α))
    (minimum : Nat) :
    cutsAlong axis ((sorts dimension [.low, .high]).map fun e => scoreSort rects e.2 e.1 minimum) =
      candidates rects axis minimum := by
  let cutsBy : Edge → Nat → List (BestCut α) := fun edge a =>
    let score := scoreSort rects a edge minimum
    score.cuts.map (BestCut.mk score)
  have hone : ∀ edge, ((List.range dimension).flatMap fun a =>
      if a = axis then cutsBy edge a else []) = cutsBy edge axis :=
    fun edge => flatMap_eq_of_nodup List.nodup_range (List.mem_range.mpr haxis) (cutsBy edge)
  have haxes : ∀ a edge, (scoreSort rects a edge minimum).axis = a := fun _ _ => rfl
  simp [cutsAlong, candidates, sorts, List.flatMap_map, haxes, cutsBy, hone]

variable [OrderedScalar α]

omit [OrderedScalar α] in
theorem numeric_sorts (hnumeric : ∀ edge ∈ [Edge.low, Edge.high], ∀ axis < dimension,
    (scoreSort rects axis edge minimum).Numeric) :
    ∀ s ∈ (sorts dimension [.low, .high]).map fun e => scoreSort rects e.2 e.1 minimum,
      s.Numeric := by
  intro s hs
  obtain ⟨e, he, rfl⟩ := List.mem_map.mp hs
  exact hnumeric e.1 (mem_sorts he).1 e.2 (mem_sorts he).2

/-- What the treatment of a directory tries: the best cut `m` of the sort `s` with the least
margins, and the first of the best cuts along the shared axis, whichever edge it goes by. -/
structure StageChoices (rects : List (Rectangle α)) (histories : List SplitHistory)
    (dimension minimum : Nat) (s : SortScore α) (m : Cut α) (o : BestCut α) : Prop where
  leastMargin : leastMarginSort rects dimension [.low, .high] minimum = some s
  best : s.best? = some m
  axis_lt : sharedAxis dimension histories < dimension
  foremost : Foremost BestCut.beats (candidates rects (sharedAxis dimension histories) minimum) o
  least : ∀ b ∈ candidates rects (sharedAxis dimension histories) minimum,
    o.cut.overlap < b.cut.overlap ∨
      (o.cut.overlap == b.cut.overlap) = true ∧ o.cut.area ≤ b.cut.area

theorem exists_stageChoices (hd : 0 < dimension) (htwo : 2 ≤ rects.length)
    (hnumeric : ∀ edge ∈ [Edge.low, Edge.high], ∀ axis < dimension,
      (scoreSort rects axis edge minimum).Numeric) (histories : List SplitHistory) :
    ∃ s m o, StageChoices rects histories dimension minimum s m o := by
  obtain ⟨edge, axis, -, hsort⟩ :=
    exists_leastMarginSort minimum hd (show [Edge.low, Edge.high] ≠ [] by simp) htwo
  obtain ⟨m, -, hm⟩ := exists_champion? Cut.isBetter
    (cuts_scoreSort_ne_nil rects axis edge minimum htwo)
  have haxis := sharedAxis_lt hd histories
  have hcandidates : candidates rects (sharedAxis dimension histories) minimum ≠ [] := by
    have hcuts := cuts_scoreSort_ne_nil rects (sharedAxis dimension histories) .low minimum htwo
    simp [candidates, hcuts]
  obtain ⟨o, hmem, ho⟩ := exists_champion? BestCut.beats hcandidates
  have hscores := numeric_sorts hnumeric
  have hgraded := graded_cutsAlong (sharedAxis dimension histories) hscores
  rw [cutsAlong_sorts haxis] at hgraded
  refine ⟨_, m, o, hsort, hm, haxis,
    (BestCut.strictOrder_beats.champion?_eq_some_iff hgraded).mp ho, fun b hb => ?_⟩
  apply Cut.le_of_not_isBetter
  · exact isNumber_of_mem_cutsAlong hscores (cutsAlong_sorts haxis rects minimum ▸ hmem)
  · exact isNumber_of_mem_cutsAlong hscores (cutsAlong_sorts haxis rects minimum ▸ hb)
  · exact BestCut.strictOrder_beats.not_better_champion? ho b hb

/-- The one pass decides as the stages do. -/
theorem overlapDecision_staged {histories : List SplitHistory}
    (hnumeric : ∀ edge ∈ [Edge.low, Edge.high], ∀ axis < dimension,
      (scoreSort rects axis edge minimum).Numeric) {s : SortScore α} {m : Cut α} {o : BestCut α}
    (h : StageChoices rects histories dimension minimum s m o) (limit : α) :
    overlapDecision rects histories dimension minimum limit = .staged s m o limit := by
  have hscores := numeric_sorts hnumeric
  have hgraded := graded_cutsAlong (sharedAxis dimension histories) hscores
  rw [cutsAlong_sorts h.axis_lt] at hgraded
  rw [overlapDecision]
  generalize hf : List.foldl _ _ _ = finalists
  have hmargin : finalists.margin = some ⟨s, m⟩ := by
    have hfound := Finalists.margin_sorts rects dimension minimum (sharedAxis dimension histories)
    rw [h.leastMargin, Option.bind_some, SortScore.finalist?, h.best] at hfound
    subst hf
    exact hfound
  have hoverlap : finalists.overlap = some o := by
    have hfound := Finalists.overlap_foldl (sharedAxis dimension histories) hscores
    rw [List.foldl_map, cutsAlong_sorts h.axis_lt,
      (BestCut.strictOrder_beats.champion?_eq_some_iff hgraded).mpr h.foremost] at hfound
    subst hf
    exact hfound
  rw [hmargin, hoverlap, Option.bind_some, Option.bind_some]
  by_cases hm : m.overlapRatio < limit
  · simp [BestCut.accept?, DirectoryDecision.staged, hm]
  · by_cases ho : o.cut.overlapRatio < limit
    · simp [BestCut.accept?, DirectoryDecision.staged, hm, ho]
    · simp [BestCut.accept?, DirectoryDecision.staged, hm, ho]

end Decision

/-- An X-tree treats a directory in three stages, whatever the tree, as long as the children and
their axes can be looked up and the scores are numbers. There is always a cut along the shared axis
to be tried second. -/
theorem Tree.overlapSplit_staged [OrderedScalar α] (t : Tree α) (id : NodeId) (n : Node α)
    (hn : t.node id = .ok n) (hdirectory : n.leaf = false) (htwo : 2 ≤ n.children.length)
    (hd : 0 < t.dim)
    (hchildren : ∀ c ∈ n.children, c.index < t.arena.size ∧ (t.slot c).bound.dim = t.dim)
    (hnumeric : ∀ edge ∈ [Edge.low, Edge.high], ∀ axis < t.dim,
      (scoreSort (t.rectsOf n) axis edge t.config.minChildren).Numeric) :
    ∃ s m o, StageChoices (t.rectsOf n) (n.children.map fun c => (t.slot c).history) t.dim
        t.config.minChildren s m o ∧
      t.overlapSplit id = .ok (.staged s m o t.config.maxOverlapRatio) := by
  have hbounds : t.rectsOf n = n.children.map fun c => (t.slot c).bound := by
    rw [rectsOf, if_neg (by simp [hdirectory])]
  have hrects : t.sortableRects id [.low, .high] = .ok (t.rectsOf n) := by
    have hentries := entryRects_directory hdirectory fun c hc => (hchildren c hc).1
    have hexists : axesExist (t.rectsOf n) t.dim [.low, .high] = true := by
      apply axesExist_of_dim
      rw [hbounds]
      intro r hr
      obtain ⟨c, hc, rfl⟩ := List.mem_map.mp hr
      exact (hchildren c hc).2.ge
    rw [sortableRects, bind_of_ok hn, bind_of_ok hentries, if_pos hexists]
    rfl
  have hlength : 2 ≤ (t.rectsOf n).length := by simpa [hbounds] using htwo
  obtain ⟨s, m, o, hchoices⟩ := exists_stageChoices hd hlength hnumeric
    (n.children.map fun c => (t.slot c).history)
  refine ⟨s, m, o, hchoices, ?_⟩
  rw [overlapSplit_of_sortable hn hrects fun c hc => (hchildren c hc).1,
    overlapDecision_staged hnumeric hchoices]

/-- Bounds whose split of least margin, along axis 1 by the low edges, overlaps by more than a
quarter; by the high edges they can be cut with less than a tenth. -/
def crowd : List (Rectangle Float) :=
  [⟨[⟨20, 36⟩, ⟨8, 25⟩]⟩, ⟨[⟨23, 28⟩, ⟨22, 24⟩]⟩, ⟨[⟨16, 36⟩, ⟨22, 23⟩]⟩, ⟨[⟨27, 37⟩, ⟨30, 33⟩]⟩,
    ⟨[⟨26, 36⟩, ⟨13, 33⟩]⟩, ⟨[⟨30, 33⟩, ⟨9, 29⟩]⟩, ⟨[⟨15, 17⟩, ⟨23, 33⟩]⟩]

def crowdedDirectory : Node Float :=
  { Node.new false 2 none 6 with children := (List.range' 1 7).map NodeId.mk }

def crowdedLeaf (bound : Rectangle Float) : Node Float where
  leaf := true
  bound
  parent := some ⟨0⟩
  capacity := 6
  history := ⟨[true, true], 0⟩

/-- A directory of leaves that have been split along both axes, along axis 0 last. -/
def crowded : Tree Float :=
  { Tree.ofConfig { (default : Config Float) with maxChildren := 6, variant := .xTree } with
    arena := (crowdedDirectory :: crowd.map crowdedLeaf).toArray }

/-- The margins' choice overlaps too much, and the best cut along the shared axis is taken. -/
theorem Tree.overlapSplit_staged_crowded :
    ∃ s m o, StageChoices crowd (List.replicate 7 ⟨[true, true], 0⟩) 2 2 s m o ∧
      ¬ m.overlapRatio < 0.2 ∧ o.score.axis = 1 ∧ o.score.edge = .high ∧
      crowded.overlapSplit ⟨0⟩ = .ok (.partition
        { o.score.partitionAt o.cut .minOverlap with
            overlapRatio := some o.cut.overlapRatio }) := by
  have hrects : crowded.rectsOf crowdedDirectory = crowd := rfl
  have hhistories : (crowdedDirectory.children.map fun c => (crowded.slot c).history) =
      List.replicate 7 ⟨[true, true], 0⟩ := rfl
  have hnumbers : ∀ edge ∈ [Edge.low, Edge.high], ∀ axis < 2,
      Scalar.isNumber (scoreSort crowd axis edge 2).marginSum = true ∧
        ∀ c ∈ (scoreSort crowd axis edge 2).cuts,
          Scalar.isNumber c.overlap = true ∧ Scalar.isNumber c.area = true := by decide +kernel
  have hnumeric : ∀ edge ∈ [Edge.low, Edge.high], ∀ axis < 2,
      (scoreSort crowd axis edge 2).Numeric := fun edge hedge axis haxis =>
    ⟨(hnumbers edge hedge axis haxis).1, (hnumbers edge hedge axis haxis).2⟩
  obtain ⟨s, m, o, hchoices, hsplit⟩ := overlapSplit_staged crowded ⟨0⟩ crowdedDirectory rfl rfl
    (by decide) (by decide) (by decide) (by rw [hrects]; exact hnumeric)
  rw [hrects, hhistories] at hchoices
  change StageChoices crowd _ 2 2 s m o at hchoices
  have hmargin : ((leastMarginSort crowd 2 [.low, .high] 2).bind SortScore.best?).map
      (fun m => decide (m.overlapRatio < 0.2)) = some false := by decide +kernel
  rw [hchoices.leastMargin, Option.bind_some, hchoices.best, Option.map_some, Option.some.injEq,
    decide_eq_false_iff_not] at hmargin
  have hoverlap : (champion? BestCut.beats (candidates crowd 1 2)).map
      (fun o => (o.score.axis, o.score.edge, decide (o.cut.overlapRatio < 0.2))) =
        some (1, .high, true) := by decide +kernel
  have hgraded := graded_cutsAlong 1 (numeric_sorts hnumeric)
  rw [cutsAlong_sorts (by decide)] at hgraded
  rw [(BestCut.strictOrder_beats.champion?_eq_some_iff hgraded).mpr hchoices.foremost,
    Option.map_some, Option.some.injEq, Prod.mk.injEq, Prod.mk.injEq, decide_eq_true_eq] at hoverlap
  obtain ⟨haxis, hedge, hbelow⟩ := hoverlap
  refine ⟨s, m, o, hchoices, hmargin, haxis, hedge, hsplit.trans ?_⟩
  have hlimit : crowded.config.maxOverlapRatio = 0.2 := rfl
  rw [hlimit, DirectoryDecision.staged, if_neg hmargin, if_pos hbelow]

end RTree
