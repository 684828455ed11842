import RTree.Proofs.Rectangle.Ratio
import RTree.Proofs.Split.Feasible

namespace RTree

open Scalar (Alike)

variable {α : Type} [Scalar α]

theorem getElem?_runningUnions (start : Rectangle α) (rects : List (Rectangle α)) (i : Nat) :
    (runningUnions start rects)[i]? =
      if i < rects.length then some ((rects.take (i + 1)).foldl Rectangle.union start)
      else none := by
  induction rects generalizing start i with
  | nil => rfl
  | cons r rects ih =>
    cases i with
    | zero => simp [runningUnions]
    | succ i => simp [runningUnions, ih]

/-- The halves are bounded from the two ends of the list. -/
theorem eq_between_of_mem_cutsOf {sorted : List (Rectangle α)} {least : Nat} {c : Cut α}
    (h : c ∈ cutsOf sorted least) :
    1 ≤ c.position ∧ c.position < sorted.length ∧
      c = .between c.position
        ((sorted.take c.position).foldl Rectangle.union
          (.empty ((sorted.head?.map Rectangle.dim).getD 0)))
        ((sorted.drop c.position).reverse.foldl Rectangle.union
          (.empty ((sorted.head?.map Rectangle.dim).getD 0))) := by
  unfold cutsOf at h
  obtain ⟨⟨⟨first, second⟩, position⟩, hmem, hc⟩ := List.mem_filterMap.mp h
  rw [List.mk_mem_zipIdx_iff_le_and_getElem?_sub, List.getElem?_zip_eq_some] at hmem
  obtain ⟨hpos, hfirst, hsecond⟩ := hmem
  obtain ⟨i, rfl⟩ : ∃ i, position = i + 1 := ⟨position - 1, by omega⟩
  rw [Nat.add_sub_cancel, getElem?_runningUnions] at hfirst
  rw [Nat.add_sub_cancel, List.getElem?_tail] at hsecond
  have hlt := (List.getElem?_eq_some_iff.mp hsecond).1
  rw [List.length_reverse, length_runningUnions, List.length_reverse] at hlt
  rw [List.getElem?_reverse (by rw [length_runningUnions, List.length_reverse]; exact hlt),
    getElem?_runningUnions, length_runningUnions, List.length_reverse] at hsecond
  rw [if_pos (by omega), Option.some.injEq] at hfirst hsecond
  rw [List.take_reverse] at hsecond
  dsimp only at hc
  split at hc
  · obtain rfl := Option.some.inj hc
    refine ⟨hpos, hlt, ?_⟩
    have hdrop : sorted.length - (sorted.length - 1 - (i + 1) + 1) = i + 1 := by omega
    rw [hdrop] at hsecond
    exact congrArg₂ (Cut.between (i + 1)) hfirst.symm hsecond.symm
  · cases hc

/-- The cuts stand in order, one at each place that leaves enough entries on both sides. -/
theorem map_position_cutsOf (sorted : List (Rectangle α)) (least : Nat) :
    (cutsOf sorted least).map Cut.position =
      (List.range' 1 (sorted.length - 1)).filter
        fun c => least ≤ c && c ≤ sorted.length - least := by
  let start := Rectangle.empty (α := α) ((sorted.head?.map Rectangle.dim).getD 0)
  let halves := (runningUnions start sorted).zip (runningUnions start sorted.reverse).reverse.tail
  have hlength : halves.length = sorted.length - 1 := by
    simp only [halves, List.length_zip, List.length_tail, List.length_reverse, length_runningUnions]
    omega
  rw [← hlength, ← List.zipIdx_map_snd, ← List.filterMap_eq_filter, List.filterMap_map]
  unfold cutsOf
  rw [List.map_filterMap]
  apply List.filterMap_congr
  rintro ⟨⟨first, second⟩, position⟩ -
  by_cases hp : least ≤ position && position ≤ sorted.length - least
  · simp [hp, Option.guard, Cut.between]
  · simp [hp, Option.guard]

/-- Picking by the places of an indexed list gives back the list. -/
theorem pick_map_snd {β : Type} {xs : List β} {ys : List (β × Nat)}
    (h : ∀ y ∈ ys, xs[y.2]? = some y.1) : pick xs (ys.map Prod.snd) = ys.map Prod.fst := by
  induction ys with
  | nil => rfl
  | cons y ys ih =>
    have hrest := ih fun z hz => h z (List.mem_cons_of_mem _ hz)
    unfold pick at hrest ⊢
    rw [List.map_cons, List.map_cons, List.filterMap_cons, h y List.mem_cons_self, hrest]

def sortedEntries (rects : List (Rectangle α)) (axis : Nat) (edge : Edge) :
    List (Rectangle α × Nat) :=
  stableSort (fun a b => decide (edge.of a.1 axis < edge.of b.1 axis)) rects.zipIdx

section Sorted

variable {rects : List (Rectangle α)} {axis : Nat} {edge : Edge} {d minimum : Nat}

theorem mem_sortedEntries {y : Rectangle α × Nat} :
    y ∈ sortedEntries rects axis edge ↔ rects[y.2]? = some y.1 :=
  mem_stableSort.trans List.mem_zipIdx_iff_getElem?

theorem order_scoreSort :
    (scoreSort rects axis edge minimum).order = (sortedEntries rects axis edge).map Prod.snd := rfl

theorem cuts_scoreSort : (scoreSort rects axis edge minimum).cuts =
    cutsOf ((sortedEntries rects axis edge).map Prod.fst)
      (max 1 (min minimum (rects.length / 2))) := rfl

theorem length_sortedEntries : (sortedEntries rects axis edge).length = rects.length := by
  unfold sortedEntries
  rw [length_stableSort, List.length_zipIdx]

/-- A cut of a sort is weighed by the bounds of the entries before it and after it, those after it
taken in from the last one on. -/
theorem eq_between_of_mem_cuts (hproper : ∀ r ∈ rects, r.Proper d) {c : Cut α}
    (h : c ∈ (scoreSort rects axis edge minimum).cuts) :
    1 ≤ c.position ∧ c.position < rects.length ∧
      c = .between c.position
        ((pick rects ((scoreSort rects axis edge minimum).order.take c.position)).foldl
          Rectangle.union (.empty d))
        ((pick rects ((scoreSort rects axis edge minimum).order.drop c.position)).reverse.foldl
          Rectangle.union (.empty d)) := by
  rw [cuts_scoreSort] at h
  obtain ⟨hpos, hlt, hbetween⟩ := eq_between_of_mem_cutsOf h
  have hfirst : pick rects ((scoreSort rects axis edge minimum).order.take c.position) =
      ((sortedEntries rects axis edge).map Prod.fst).take c.position := by
    rw [order_scoreSort, ← List.map_take, ← List.map_take]
    exact pick_map_snd fun y hy => mem_sortedEntries.mp (List.mem_of_mem_take hy)
  have hsecond : pick rects ((scoreSort rects axis edge minimum).order.drop c.position) =
      ((sortedEntries rects axis edge).map Prod.fst).drop c.position := by
    rw [order_scoreSort, ← List.map_drop, ← List.map_drop]
    exact pick_map_snd fun y hy => mem_sortedEntries.mp (List.mem_of_mem_drop hy)
  have hdim : (((sortedEntries rects axis edge).map Prod.fst).head?.map Rectangle.dim).getD 0 =
      d := by
    cases hs : sortedEntries rects axis edge with
    | nil =>
      rw [hs] at hlt
      cases hlt
    | cons y rest =>
      have hy : y ∈ sortedEntries rects axis edge := hs ▸ List.mem_cons_self
      exact (hproper y.1 (List.mem_of_getElem? (mem_sortedEntries.mp hy))).dim
  rw [List.length_map, length_sortedEntries] at hlt
  refine ⟨hpos, hlt, ?_⟩
  rw [hfirst, hsecond, ← hdim]
  exact hbetween

end Sorted

variable [SteadyScalar α] {rects : List (Rectangle α)} {d minimum : Nat}

/-- A list may be bounded in any order. -/
theorem foldl_union_alike {rects' : List (Rectangle α)} (h : ∀ r ∈ rects, r.Proper d)
    (hperm : rects.Perm rects') :
    (rects.foldl Rectangle.union (.empty d)).Alike
      (rects'.foldl Rectangle.union (.empty d)) := by
  have h' : ∀ r ∈ rects', r.Proper d := fun r hr => h r (hperm.mem_iff.mpr hr)
  have hhull := Rectangle.isHull_foldl h (Rectangle.isHull_nil d)
  have hhull' := Rectangle.isHull_foldl h' (Rectangle.isHull_nil d)
  rw [List.nil_append] at hhull hhull'
  apply Rectangle.alike_of_beq
  apply hhull.beq
  apply hhull'.congr
  intro _ _
  simp only [hperm.mem_iff]

/-- The score of a partition is the overlap ratio of the bounds that its halves get. -/
theorem BestCut.FromSorts.overlapRatio_alike {b : BestCut α} (h : b.FromSorts rects d minimum)
    (hproper : ∀ r ∈ rects, r.Proper d) (kind : PartitionRule) :
    Alike b.cut.overlapRatio
      (((pick rects (b.score.partitionAt b.cut kind).first).foldl Rectangle.union
        (.empty d)).overlapRatio
      ((pick rects (b.score.partitionAt b.cut kind).second).foldl Rectangle.union (.empty d))) := by
  obtain ⟨edge, axis, -, hscore, hcut⟩ := h
  rw [hscore] at hcut
  obtain ⟨-, -, hbetween⟩ := eq_between_of_mem_cuts hproper hcut
  rw [congrArg Cut.overlapRatio hbetween, Cut.overlapRatio_between, ← hscore]
  apply (Rectangle.Alike.refl _).overlapRatio
  refine foldl_union_alike (fun r hr => hproper r ?_) (List.reverse_perm _)
  exact mem_of_mem_pick (List.mem_reverse.mp hr)

end RTree
