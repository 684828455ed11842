import RTree.Proofs.Scalar.Binary64
import RTree.Proofs.Scalar.Lexicographic
import RTree.Proofs.Split.Feasible
import RTree.Proofs.Tree.Views
import RTree.Tree.Strategy

namespace RTree

open OrderedScalar
open Scalar (isNumber Alike)

variable {α : Type} [Scalar α]

namespace Cut

variable [OrderedScalar α] {c d : Cut α}

def score (c : Cut α) : α × α := (c.overlap, c.area)

omit [OrderedScalar α] in
theorem isBetter_iff : c.isBetter d = true ↔
    c.overlap < d.overlap ∨ (c.overlap == d.overlap) = true ∧ c.area < d.area :=
  Scalar.lexLt_iff (a := c.score) (b := d.score)

/-- Less overlap comes first, then less volume. -/
theorem strictOrder_isBetter : StrictOrder (isBetter (α := α)) :=
  Scalar.strictOrder_lexLt.comap score

/-- A cut with numbers that another does not beat has less overlap, or the same and no more
volume. -/
theorem le_of_not_isBetter (hc : isNumber c.overlap = true ∧ isNumber c.area = true)
    (hd : isNumber d.overlap = true ∧ isNumber d.area = true) (h : d.isBetter c = false) :
    c.overlap < d.overlap ∨ (c.overlap == d.overlap) = true ∧ c.area ≤ d.area :=
  Scalar.le_of_not_lexLt (a := c.score) (b := d.score) hc hd h

/-- Cuts with numbers can all be compared. -/
theorem graded_isBetter {cuts : List (Cut α)}
    (h : ∀ c ∈ cuts, isNumber c.overlap = true ∧ isNumber c.area = true) :
    Graded isBetter cuts :=
  Scalar.graded_lexLt (f := score) h

end Cut

/-- All that the sort and its cuts are compared by is numbers. -/
structure SortScore.Numeric (s : SortScore α) : Prop where
  marginSum : isNumber s.marginSum = true
  cuts : ∀ c ∈ s.cuts, isNumber c.overlap = true ∧ isNumber c.area = true

/-- The score of the sort by `edge`, which stands in `place` among the edges, along `axis`. No sort
with a cut has a smaller sum of margins, and none that comes before it has as small a one: the
edges are gone through outermost. -/
structure SortScore.FirstLeast (s : SortScore α) (rects : List (Rectangle α)) (dimension : Nat)
    (edges : List Edge) (minimum : Nat) (place axis : Nat) (edge : Edge) : Prop where
  edge_at : edges[place]? = some edge
  axis_lt : axis < dimension
  score : s = scoreSort rects axis edge minimum
  cuts : s.cuts ≠ []
  least : ∀ edge' ∈ edges, ∀ axis' < dimension,
    (scoreSort rects axis' edge' minimum).cuts ≠ [] →
      s.marginSum ≤ (scoreSort rects axis' edge' minimum).marginSum
  first : ∀ (place' : Nat) edge' axis', edges[place']? = some edge' → axis' < dimension →
    (scoreSort rects axis' edge' minimum).cuts ≠ [] →
      place' < place ∨ place' = place ∧ axis' < axis →
        s.marginSum < (scoreSort rects axis' edge' minimum).marginSum

/-- The cut in `place` has the least overlap and, of the cuts with that, the least volume; those
before it have more of one or the other. -/
structure SortScore.BestAt (s : SortScore α) (place : Nat) (c : Cut α) : Prop where
  index : s.bestIndex? = some place
  best : s.best? = some c
  cut : s.cuts[place]? = some c
  least : ∀ d ∈ s.cuts,
    c.overlap < d.overlap ∨ (c.overlap == d.overlap) = true ∧ c.area ≤ d.area
  first : ∀ (before : Nat) d, before < place → s.cuts[before]? = some d →
    c.overlap < d.overlap ∨ (c.overlap == d.overlap) = true ∧ c.area < d.area

/-- Both edges on each axis count as equal or are no numbers. -/
def Rectangle.Pointlike (r : Rectangle α) : Prop := ∀ g ∈ r.ranges, Scalar.Alike g.lo g.hi

theorem Rectangle.pointlike_ofPoint (p : List α) : (ofPoint p).Pointlike := by
  intro g hg
  obtain ⟨v, -, rfl⟩ := List.mem_map.mp hg
  exact .refl v

section Sorts

variable {dimension : Nat} {edges : List Edge}

theorem sorts_cons (dimension : Nat) (edge : Edge) (edges : List Edge) :
    sorts dimension (edge :: edges) =
      (List.range dimension).map (fun axis => (edge, axis)) ++ sorts dimension edges :=
  List.flatMap_cons

theorem getElem?_sorts {axis : Nat} (place : Nat) (h : axis < dimension) :
    (sorts dimension edges)[place * dimension + axis]? =
      edges[place]?.map fun edge => (edge, axis) := by
  induction edges generalizing place with
  | nil => simp [sorts]
  | cons edge edges ih =>
    rw [sorts_cons]
    cases place with
    | zero => simp [List.getElem?_append_left, h]
    | succ place =>
      have hle : dimension ≤ (place + 1) * dimension + axis := by
        rw [Nat.succ_mul]
        omega
      have hsub : (place + 1) * dimension + axis - dimension = place * dimension + axis := by
        rw [Nat.succ_mul]
        omega
      rw [List.getElem?_append_right (by simpa using hle)]
      simp [hsub, ih]

/-- The place of a sort tells its edge and its axis. -/
theorem exists_place_of_sorts {n : Nat} {e : Edge × Nat}
    (h : (sorts dimension edges)[n]? = some e) :
    ∃ place, edges[place]? = some e.1 ∧ e.2 < dimension ∧ n = place * dimension + e.2 := by
  have haxis := (mem_sorts (List.mem_of_getElem? h)).2
  have hmod : n % dimension < dimension := Nat.mod_lt _ (by omega)
  have hsplit : n = n / dimension * dimension + n % dimension := (Nat.div_add_mod' n dimension).symm
  rw [hsplit, getElem?_sorts _ hmod, Option.map_eq_some_iff] at h
  obtain ⟨edge, hedge, rfl⟩ := h
  exact ⟨n / dimension, hedge, hmod, hsplit⟩

end Sorts

section Choice

variable [OrderedScalar α] {rects : List (Rectangle α)} {dimension minimum : Nat}
  {edges : List Edge} {s : SortScore α}

omit [OrderedScalar α] in
theorem leastMarginSort_eq_none_iff : leastMarginSort rects dimension edges minimum = none ↔
    ∀ edge ∈ edges, ∀ axis < dimension, (scoreSort rects axis edge minimum).cuts = [] := by
  have hnone : ∀ xs : List (SortScore α),
      champion? (fun s t => decide (s.marginSum < t.marginSum)) xs = none ↔ xs = [] := by
    intro xs
    cases xs <;> simp [champion?]
  unfold leastMarginSort
  simp only [hnone, List.filter_eq_nil_iff, List.forall_mem_map, Bool.not_eq_true',
    List.isEmpty_eq_false_iff, not_not]
  constructor
  · intro h edge hedge axis haxis
    apply h (edge, axis)
    exact List.mem_flatMap.mpr ⟨edge, hedge, List.mem_map.mpr ⟨axis, List.mem_range.mpr haxis, rfl⟩⟩
  · intro h e he
    exact h e.1 (mem_sorts he).1 e.2 (mem_sorts he).2

/-- The score chosen is the first one with the least margins. -/
theorem exists_firstLeast
    (hnumeric : ∀ edge ∈ edges, ∀ axis < dimension, (scoreSort rects axis edge minimum).Numeric)
    (h : leastMarginSort rects dimension edges minimum = some s) :
    ∃ place axis edge, s.FirstLeast rects dimension edges minimum place axis edge := by
  let score : Edge × Nat → SortScore α := fun e => scoreSort rects e.2 e.1 minimum
  have horder : StrictOrder fun s t : SortScore α => decide (s.marginSum < t.marginSum) :=
    Scalar.strictOrder_lt.comap SortScore.marginSum
  have hgraded : Graded (fun s t : SortScore α => decide (s.marginSum < t.marginSum))
      (((sorts dimension edges).map score).filter fun s => !s.cuts.isEmpty) := by
    apply Scalar.graded_lt
    intro s hs
    obtain ⟨e, he, rfl⟩ := List.mem_map.mp (List.mem_filter.mp hs).1
    exact (hnumeric e.1 (mem_sorts he).1 e.2 (mem_sorts he).2).marginSum
  have hforemost := (horder.champion?_eq_some_iff hgraded).mp h
  obtain ⟨n, hn, hcuts, hleast⟩ := hforemost.exists_place_filter horder
  rw [List.getElem?_map, Option.map_eq_some_iff] at hn
  obtain ⟨e, he, rfl⟩ := hn
  obtain ⟨place, hplace, haxis, rfl⟩ := exists_place_of_sorts he
  have hother : ∀ (place' : Nat) edge' axis', edges[place']? = some edge' → axis' < dimension →
      (scoreSort rects axis' edge' minimum).cuts ≠ [] →
        ¬ (scoreSort rects axis' edge' minimum).marginSum < (score e).marginSum ∧
          (place' * dimension + axis' < place * dimension + e.2 →
            (score e).marginSum < (scoreSort rects axis' edge' minimum).marginSum) := by
    intro place' edge' axis' hplace' haxis' hcuts'
    have hat : ((sorts dimension edges).map score)[place' * dimension + axis']? =
        some (scoreSort rects axis' edge' minimum) := by
      rw [List.getElem?_map, getElem?_sorts place' haxis', hplace']
      rfl
    simpa using hleast _ _ hat (by simpa using hcuts')
  refine ⟨place, e.2, e.1, hplace, haxis, rfl, by simpa using hcuts, ?_, ?_⟩
  · intro edge' hedge' axis' haxis' hcuts'
    obtain ⟨place', hplace'⟩ := List.getElem?_of_mem hedge'
    apply Scalar.le_of_not_lt
    · exact (hnumeric e.1 (List.mem_of_getElem? hplace) e.2 haxis).marginSum
    · exact (hnumeric edge' hedge' axis' haxis').marginSum
    · exact (hother place' edge' axis' hplace' haxis' hcuts').1
  · intro place' edge' axis' hplace' haxis' hcuts' hbefore
    apply (hother place' edge' axis' hplace' haxis' hcuts').2
    rcases hbefore with hlt | ⟨rfl, hlt⟩
    · have hmul := Nat.mul_le_mul_right dimension (Nat.succ_le_of_lt hlt)
      rw [Nat.succ_mul] at hmul
      omega
    · omega

/-- Comparable cuts have a first best one. -/
theorem SortScore.exists_bestAt (hcuts : s.cuts ≠ [])
    (hnumbers : ∀ c ∈ s.cuts, isNumber c.overlap = true ∧ isNumber c.area = true) :
    ∃ place c, s.BestAt place c := by
  have horder := Cut.strictOrder_isBetter.comap (Prod.fst : Cut α × Nat → Cut α)
  have hgraded : Graded (fun a b : Cut α × Nat => a.1.isBetter b.1) s.cuts.zipIdx := by
    have hg := Cut.graded_isBetter hnumbers
    rw [← List.zipIdx_map_fst 0 s.cuts] at hg
    exact hg.comap
  obtain ⟨⟨c, place⟩, hmem, hchosen⟩ := exists_champion?
    (fun a b : Cut α × Nat => a.1.isBetter b.1) (show s.cuts.zipIdx ≠ [] by simpa using hcuts)
  obtain ⟨hindex, hbest⟩ := champion?_zipIdx hchosen
  have hcut := List.mem_zipIdx_iff_getElem?.mp hmem
  refine ⟨place, c, hindex, hbest, hcut, fun d hd => ?_, fun before d hlt hd => ?_⟩
  · exact Cut.le_of_not_isBetter (hnumbers c (List.mem_of_getElem? hcut)) (hnumbers d hd)
      (Cut.strictOrder_isBetter.not_better_champion? hbest d hd)
  · obtain ⟨n, hn, hfirst⟩ :=
      ((horder.champion?_eq_some_iff hgraded).mp hchosen).exists_place horder
    obtain rfl : place = n := by
      rw [List.getElem?_zipIdx, Option.map_eq_some_iff] at hn
      obtain ⟨d, -, heq⟩ := hn
      simpa using (congrArg Prod.snd heq).symm
    exact Cut.isBetter_iff.mp ((hfirst before (d, before) (by simp [hd])).2 hlt)

end Choice

section Points

variable [OrderedScalar α] {rects : List (Rectangle α)} {dimension axis minimum : Nat}

omit [Scalar α] [OrderedScalar α] in
theorem axesExist_low_high (rects : List (Rectangle α)) (dimension : Nat) :
    axesExist rects dimension [.low, .high] = axesExist rects dimension [.low] := by
  simp [axesExist, sorts]

/-- Points are sorted alike by their low and by their high edges. -/
theorem scoreSort_high (hexists : axisExists rects axis = true)
    (hpoints : ∀ r ∈ rects, r.Pointlike) (minimum : Nat) :
    scoreSort rects axis .high minimum =
      { scoreSort rects axis .low minimum with edge := .high } := by
  have hedges : ∀ r ∈ rects, axis < r.dim →
      Alike (Edge.high.of r axis) (Edge.low.of r axis) := by
    intro r hr haxis
    have hget : r.ranges.getD axis Range.empty ∈ r.ranges := by
      simp only [List.getD_eq_getElem?_getD, List.getElem?_eq_getElem haxis, Option.getD_some]
      exact List.getElem_mem haxis
    exact (hpoints r hr _ hget).symm
  have hirrefl : ∀ a : α, decide (a < a) = false := Scalar.strictOrder_lt.irrefl
  have hsame : ∀ x ∈ rects.zipIdx, ∀ y ∈ rects.zipIdx,
      decide (Edge.high.of x.1 axis < Edge.high.of y.1 axis) =
        decide (Edge.low.of x.1 axis < Edge.low.of y.1 axis) := by
    intro x hx y hy
    have hxr := List.fst_mem_of_mem_zipIdx hx
    have hyr := List.fst_mem_of_mem_zipIdx hy
    simp only [axisExists, Bool.or_eq_true, decide_eq_true_eq, List.all_eq_true] at hexists
    rcases hexists with hfew | hall
    · obtain ⟨r, hr⟩ : ∃ r, rects = [r] := by
        apply List.length_eq_one_iff.mp
        have hpos := List.length_pos_of_mem hxr
        omega
      rw [hr, List.mem_singleton] at hxr hyr
      rw [hxr, hyr, hirrefl, hirrefl]
    · exact decide_eq_decide.mpr
        ((hedges x.1 hxr (hall x.1 hxr)).lt_iff_lt (hedges y.1 hyr (hall y.1 hyr)))
  simp only [scoreSort, stableSort_congr hsame]

/-- The sorts by the high edges add nothing to those by the low ones, which come first. -/
theorem leastMarginSort_points (hexists : axesExist rects dimension [.low] = true)
    (hpoints : ∀ r ∈ rects, r.Pointlike) (minimum : Nat) :
    leastMarginSort rects dimension [.low, .high] minimum =
      leastMarginSort rects dimension [.low] minimum := by
  let lows : List (SortScore α) := (List.range dimension).map fun axis =>
    scoreSort rects axis .low minimum
  let raise : SortScore α → SortScore α := fun s => { s with edge := .high }
  let less : SortScore α → SortScore α → Bool := fun s t => decide (s.marginSum < t.marginSum)
  have hless : StrictOrder less := Scalar.strictOrder_lt.comap SortScore.marginSum
  have hhighs : ((List.range dimension).map fun axis => scoreSort rects axis .high minimum) =
      lows.map raise := by
    rw [List.map_map]
    apply List.map_congr_left
    intro axis haxis
    apply scoreSort_high _ hpoints
    have hsort := List.all_eq_true.mp hexists
    exact hsort (.low, axis) (by simpa [sorts] using haxis)
  have hlow : leastMarginSort rects dimension [.low] minimum =
      champion? less (lows.filter fun s => !s.cuts.isEmpty) := by
    simp [leastMarginSort, sorts, lows, less, Function.comp_def]
  have hboth : leastMarginSort rects dimension [.low, .high] minimum =
      champion? less ((lows.filter fun s => !s.cuts.isEmpty) ++
        (lows.filter fun s => !s.cuts.isEmpty).map raise) := by
    have hkeep : (lows.map raise).filter (fun s => !s.cuts.isEmpty) =
        (lows.filter fun s => !s.cuts.isEmpty).map raise := List.filter_map
    rw [← hkeep, ← hhighs, ← List.filter_append]
    simp [leastMarginSort, sorts, lows, less, Function.comp_def]
  rw [hlow, hboth]
  cases hcut : lows.filter fun s => !s.cuts.isEmpty with
  | nil => rfl
  | cons s rest =>
    -- none of the repeated scores is better than the champion of the first
    have hbest := hless.not_better_champion s rest
    have hstays : champion less (champion less s rest) ((s :: rest).map raise) =
        champion less s rest := by
      apply champion_eq_self
      intro y hy
      obtain ⟨x, hx, rfl⟩ := List.mem_map.mp hy
      exact hbest x hx
    exact congrArg some ((champion_append less s rest _).trans hstays)

theorem Partition.leastMargin_points (hexists : axesExist rects dimension [.low] = true)
    (hpoints : ∀ r ∈ rects, r.Pointlike) (minimum : Nat) :
    leastMargin rects dimension [.low] minimum =
      leastMargin rects dimension [.low, .high] minimum := by
  simp only [leastMargin, leastMarginSort_points hexists hpoints]

omit [OrderedScalar α] in
theorem Tree.pointlike_entryRects {t : Tree α} {n : Node α} {rects : List (Rectangle α)}
    (hleaf : n.leaf = true) (h : t.entryRects n = .ok rects) : ∀ r ∈ rects, r.Pointlike := by
  rw [entryRects, if_pos hleaf] at h
  obtain ⟨placed, -, h⟩ := bind_eq_ok.mp h
  obtain rfl := Except.ok.inj h
  intro r hr
  obtain ⟨point, -, rfl⟩ := List.mem_map.mp hr
  exact Rectangle.pointlike_ofPoint point.2

/-- A leaf loses nothing by being sorted by the low edges only. -/
theorem Tree.leafSplit_eq {t : Tree α} {leaf : NodeId} {n : Node α} (hn : t.node leaf = .ok n)
    (hleaf : n.leaf = true) :
    t.leafSplit leaf = (do
      let rects ← t.sortableRects leaf [.low, .high]
      return Partition.leastMargin rects t.dim [.low, .high] t.config.minLeafSize) := by
  have hsame : t.sortableRects leaf [.low, .high] = t.sortableRects leaf [.low] := by
    simp only [sortableRects, axesExist_low_high]
  rw [leafSplit, hsame]
  cases hrects : t.sortableRects leaf [.low] with
  | error cause => rfl
  | ok rects =>
    obtain ⟨n', hn', h⟩ := bind_eq_ok.mp hrects
    obtain rfl : n = n' := Except.ok.inj (hn.symm.trans hn')
    obtain ⟨rects', hentries, h⟩ := bind_eq_ok.mp h
    split at h
    · rename_i hexists
      obtain rfl := Except.ok.inj h
      exact congrArg Except.ok
        (Partition.leastMargin_points hexists (pointlike_entryRects hleaf hentries) _)
    · cases h

end Points

/-- Scores that are numbers are compared to the end: the first sort with the least margins is
chosen, and on it the first cut with the least overlap and volume. Nothing is better than the best
cut even among scores that are no numbers. For points the high edges make no difference, neither to
the choice nor to the division of a leaf. -/
theorem leastMargin_optimal [OrderedScalar α] :
    (∀ (rects : List (Rectangle α)) (dimension : Nat) (edges : List Edge) (minimum : Nat),
      (∀ edge ∈ edges, ∀ axis < dimension, (scoreSort rects axis edge minimum).Numeric) →
        (leastMarginSort rects dimension edges minimum = none ↔
          ∀ edge ∈ edges, ∀ axis < dimension, (scoreSort rects axis edge minimum).cuts = []) ∧
        ∀ s, leastMarginSort rects dimension edges minimum = some s →
          (∃ place axis edge, s.FirstLeast rects dimension edges minimum place axis edge) ∧
            ∃ place cut, s.BestAt place cut) ∧
    (∀ (s : SortScore α) cut, s.best? = some cut → ∀ c ∈ s.cuts, c.isBetter cut = false) ∧
    (∀ (rects : List (Rectangle α)) (dimension minimum : Nat),
      axesExist rects dimension [.low] = true → (∀ r ∈ rects, r.Pointlike) →
        leastMarginSort rects dimension [.low] minimum =
          leastMarginSort rects dimension [.low, .high] minimum ∧
        Partition.leastMargin rects dimension [.low] minimum =
          Partition.leastMargin rects dimension [.low, .high] minimum) ∧
    ∀ (t : Tree α) (leaf : NodeId) (n : Node α), t.node leaf = .ok n → n.leaf = true →
      t.leafSplit leaf = (do
        let rects ← t.sortableRects leaf [.low, .high]
        return Partition.leastMargin rects t.dim [.low, .high] t.config.minLeafSize) := by
  refine ⟨?_, ?_, ?_, fun t leaf n => Tree.leafSplit_eq⟩
  · intro rects dimension edges minimum hnumeric
    refine ⟨leastMarginSort_eq_none_iff, fun s hs => ?_⟩
    obtain ⟨place, axis, edge, hfirst⟩ := exists_firstLeast hnumeric hs
    have hscore := hnumeric edge (List.mem_of_getElem? hfirst.edge_at) axis hfirst.axis_lt
    rw [← hfirst.score] at hscore
    exact ⟨⟨place, axis, edge, hfirst⟩, SortScore.exists_bestAt hfirst.cuts hscore.cuts⟩
  · intro s cut hbest
    exact Cut.strictOrder_isBetter.not_better_champion? hbest
  · intro rects dimension minimum hexists hpoints
    exact ⟨(leastMarginSort_points hexists hpoints minimum).symm,
      Partition.leastMargin_points hexists hpoints minimum⟩

/-- Four rectangles on a line, one of which reaches over all of them. -/
def spanned : List (Rectangle Float) :=
  [⟨[⟨0, 1⟩, ⟨0, 1⟩]⟩, ⟨[⟨0, 4⟩, ⟨0, 1⟩]⟩, ⟨[⟨3, 4⟩, ⟨0, 1⟩]⟩, ⟨[⟨0, 1⟩, ⟨0, 1⟩]⟩]

def squareCorners : List (Rectangle Float) :=
  [.ofPoint [0, 0], .ofPoint [0, 2], .ofPoint [2, 0], .ofPoint [2, 2]]

def cornered : Tree Float :=
  { Tree.ofConfig (default : Config Float) with
    store := #[⟨[0, 0], true⟩, ⟨[0, 2], true⟩, ⟨[2, 0], true⟩, ⟨[2, 2], true⟩]
    arena := #[{ Node.new true 2 none 5 with points := (List.range 4).map PointId.mk }] }

/-- By their low edges the four are sorted worse than by their high ones, which come later; on the
sort chosen no cut is better than another, and the first is taken. The corners of a square are
sorted equally well in all four ways, of which the first is chosen. -/
theorem leastMargin_optimal_spanned :
    (∃ s cut, leastMarginSort spanned 2 [.low, .high] 1 = some s ∧
      s.FirstLeast spanned 2 [.low, .high] 1 1 0 .high ∧ s.BestAt 0 cut ∧ s.cuts.length = 3 ∧
        ∀ c ∈ s.cuts, cut.isBetter c = false) ∧
      leastMarginSort squareCorners 2 [.low] 1 = leastMarginSort squareCorners 2 [.low, .high] 1 ∧
      cornered.leafSplit ⟨0⟩ = .ok (.leastMargin squareCorners 2 [.low, .high] 8) := by
  obtain ⟨hchoice, -, hpoints, hleaf⟩ := leastMargin_optimal (α := Float)
  refine ⟨?_, ?_, hleaf cornered ⟨0⟩ _ rfl rfl⟩
  · have hnumbers : ∀ edge ∈ [Edge.low, Edge.high], ∀ axis < 2,
        isNumber (scoreSort spanned axis edge 1).marginSum = true ∧
          ∀ c ∈ (scoreSort spanned axis edge 1).cuts,
            isNumber c.overlap = true ∧ isNumber c.area = true := by decide +kernel
    obtain ⟨-, hsome⟩ := hchoice spanned 2 [.low, .high] 1 fun edge hedge axis haxis =>
      ⟨(hnumbers edge hedge axis haxis).1, (hnumbers edge hedge axis haxis).2⟩
    have hchosen : (leastMarginSort spanned 2 [.low, .high] 1).map (fun s => (s.axis, s.edge)) =
        some (0, .high) := by decide +kernel
    obtain ⟨s, hs, hat⟩ := Option.map_eq_some_iff.mp hchosen
    obtain ⟨⟨place, axis, edge, hfirst⟩, best, cut, hbest⟩ := hsome s hs
    obtain ⟨rfl, rfl⟩ : axis = 0 ∧ edge = .high := by
      rw [hfirst.score] at hat
      exact Prod.ext_iff.mp hat
    obtain rfl : place = 1 := by
      have hedge := hfirst.edge_at
      match place with
      | 0 => cases hedge
      | 1 => rfl
      | n + 2 => cases hedge
    obtain ⟨hindex, hlength, hequal⟩ :
        (scoreSort spanned 0 .high 1).bestIndex? = some 0 ∧
          (scoreSort spanned 0 .high 1).cuts.length = 3 ∧
            ∀ c ∈ (scoreSort spanned 0 .high 1).cuts, ∀ d ∈ (scoreSort spanned 0 .high 1).cuts,
              c.isBetter d = false := by decide +kernel
    rw [← hfirst.score] at hindex hlength hequal
    obtain rfl : best = 0 := Option.some.inj (hbest.index.symm.trans hindex)
    exact ⟨s, cut, hs, hfirst, hbest, hlength, hequal cut (List.mem_of_getElem? hbest.cut)⟩
  · apply (hpoints squareCorners 2 1 (by decide) ?_).1
    simp [squareCorners, Rectangle.pointlike_ofPoint]

end RTree
