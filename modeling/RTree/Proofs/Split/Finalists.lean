import RTree.Proofs.Split.Feasible

namespace RTree

variable {α : Type} [Scalar α]

theorem BestCut.accept?_eq_some {b : BestCut α} {kind : PartitionRule} {limit : α}
    {p : Partition α} : b.accept? kind limit = some p ↔ b.cut.overlapRatio < limit ∧
      p = { b.score.partitionAt b.cut kind with overlapRatio := some b.cut.overlapRatio } := by
  unfold BestCut.accept?
  split
  · rename_i hlt
    rw [Option.some.injEq]
    exact ⟨fun h => ⟨hlt, h.symm⟩, fun h => h.2.symm⟩
  · rename_i hlt
    constructor
    · intro h
      cases h
    · intro h
      exact absurd h.1 hlt

namespace SortScore

variable {s : SortScore α} {cut : Cut α}

theorem cuts_eq_nil_of_best? (h : s.best? = none) : s.cuts = [] := by
  by_contra hne
  obtain ⟨cut, -, hcut⟩ := exists_champion? Cut.isBetter hne
  rw [best?, hcut] at h
  cases h

theorem isEmpty_cuts_of_best? (h : s.best? = some cut) : s.cuts.isEmpty = false := by
  rw [List.isEmpty_eq_false_iff]
  exact List.ne_nil_of_mem (champion?_mem h)

def finalist? (s : SortScore α) : Option (BestCut α) := s.best?.map (BestCut.mk s)

end SortScore

namespace Finalists

/-- The score that reigns after some challengers reigns with its best cut. -/
theorem margin_foldl_of_some (chosenAxis : Nat) (scores : List (SortScore α)) {f : Finalists α}
    {b : BestCut α} (hm : f.margin = some b) (hb : b.score.best? = some b.cut) :
    (scores.foldl (Finalists.add chosenAxis) f).margin =
      (champion (fun s t => decide (s.marginSum < t.marginSum)) b.score
        (scores.filter fun s => !s.cuts.isEmpty)).finalist? := by
  induction scores generalizing f b with
  | nil =>
    rw [List.foldl_nil, List.filter_nil, champion_nil, hm, SortScore.finalist?, hb]
    rfl
  | cons s scores ih =>
    rw [List.foldl_cons]
    cases hbest : s.best? with
    | none =>
      have hadd : f.add chosenAxis s = f := by simp only [add, hbest]
      have hdrop : s.cuts = [] := SortScore.cuts_eq_nil_of_best? hbest
      rw [hadd, List.filter_cons_of_neg (by simp [hdrop])]
      exact ih hm hb
    | some cut =>
      have hkeep := SortScore.isEmpty_cuts_of_best? hbest
      rw [List.filter_cons_of_pos (by simp [hkeep]), champion_cons]
      by_cases hlt : s.marginSum < b.score.marginSum
      · have hadd : (f.add chosenAxis s).margin = some ⟨s, cut⟩ := by
          simp only [add, hbest, hm, if_pos hlt]
        rw [if_pos (decide_eq_true hlt)]
        exact ih hadd hbest
      · have hadd : (f.add chosenAxis s).margin = some b := by
          simp only [add, hbest, hm, if_neg hlt]
        rw [if_neg (by simpa using hlt)]
        exact ih hadd hb

theorem margin_foldl (chosenAxis : Nat) (scores : List (SortScore α)) {f : Finalists α}
    (hm : f.margin = none) :
    (scores.foldl (Finalists.add chosenAxis) f).margin =
      (champion? (fun s t => decide (s.marginSum < t.marginSum))
        (scores.filter fun s => !s.cuts.isEmpty)).bind SortScore.finalist? := by
  induction scores generalizing f with
  | nil => exact hm
  | cons s scores ih =>
    rw [List.foldl_cons]
    cases hbest : s.best? with
    | none =>
      have hadd : f.add chosenAxis s = f := by simp only [add, hbest]
      have hdrop : s.cuts = [] := SortScore.cuts_eq_nil_of_best? hbest
      rw [hadd, List.filter_cons_of_neg (by simp [hdrop])]
      exact ih hm
    | some cut =>
      have hkeep := SortScore.isEmpty_cuts_of_best? hbest
      have hadd : (f.add chosenAxis s).margin = some ⟨s, cut⟩ := by simp only [add, hbest, hm]
      rw [List.filter_cons_of_pos (by simp [hkeep])]
      exact margin_foldl_of_some chosenAxis scores hadd hbest

end Finalists

variable {rects : List (Rectangle α)} {dimension minimum : Nat} {limit : α} {p : Partition α}

/-- How an accepted partition came about: it was the best cut of some sort, with an overlap ratio
below the limit, and if it goes by margin it is the split of least margin. -/
structure Accepted (rects : List (Rectangle α)) (dimension minimum : Nat) (limit : α)
    (p : Partition α) (b : BestCut α) : Prop where
  fromSorts : b.FromSorts rects dimension minimum
  below : b.cut.overlapRatio < limit
  eq : p = { b.score.partitionAt b.cut p.kind with overlapRatio := some b.cut.overlapRatio }
  kind : p.kind = .minOverlap ∨ p.kind = .margin ∧
    Partition.leastMargin rects dimension [.low, .high] minimum =
      b.score.partitionAt b.cut .margin

/-- A partition that an X-tree accepts is balanced. -/
theorem Accepted.balanced (h : 2 * minimum ≤ rects.length) {b : BestCut α}
    (hp : Accepted rects dimension minimum limit p b) : p.Balanced rects.length minimum := by
  obtain ⟨edge, axis, -, hscore, hcut⟩ := hp.fromSorts
  rw [hscore] at hcut
  have hb := balanced_partitionAt h hcut p.kind
  rw [hp.eq, hscore]
  exact ⟨hb.perm, hb.le_first, hb.le_second⟩

/-- The pass finds the split of least margin. -/
theorem Finalists.margin_sorts (rects : List (Rectangle α)) (dimension minimum chosenAxis : Nat) :
    ((sorts dimension [.low, .high]).foldl
      (fun (f : Finalists α) e => f.add chosenAxis (scoreSort rects e.2 e.1 minimum)) {}).margin =
      (leastMarginSort rects dimension [.low, .high] minimum).bind SortScore.finalist? := by
  have hfold := margin_foldl chosenAxis
    ((sorts dimension [.low, .high]).map fun e => scoreSort rects e.2 e.1 minimum) (f := {}) rfl
  rw [List.foldl_map] at hfold
  exact hfold

theorem exists_accepted {histories : List SplitHistory}
    (h : overlapDecision rects histories dimension minimum limit = .partition p) :
    ∃ b, Accepted rects dimension minimum limit p b := by
  let chosenAxis := sharedAxis dimension histories
  obtain ⟨hfromMargin, hfromOverlap⟩ := foldl_finalists_fromSorts rects minimum chosenAxis
    (sorts dimension [.low, .high]) (fun e he => (mem_sorts he).2) (f := {}) (by simp) (by simp)
  have hmargin := Finalists.margin_sorts rects dimension minimum chosenAxis
  unfold overlapDecision at h
  dsimp only at h
  split at h
  · rename_i p' hacc
    obtain rfl : p' = p := by injection h
    obtain ⟨b, hb, hacc⟩ := Option.bind_eq_some_iff.mp hacc
    obtain ⟨hbelow, hp⟩ := BestCut.accept?_eq_some.mp hacc
    have hkind : p'.kind = .margin := by rw [hp]; rfl
    refine ⟨b, hfromMargin b hb, hbelow, by rw [hkind]; exact hp, .inr ⟨hkind, ?_⟩⟩
    obtain ⟨s, hs, hfinalist⟩ := Option.bind_eq_some_iff.mp (hmargin.symm.trans hb)
    obtain ⟨cut, hcut, rfl⟩ := Option.map_eq_some_iff.mp hfinalist
    unfold Partition.leastMargin
    rw [hs]
    simp only [hcut]
  · split at h
    · rename_i p' hacc
      obtain rfl : p' = p := by injection h
      obtain ⟨b, hb, hacc⟩ := Option.bind_eq_some_iff.mp hacc
      obtain ⟨hbelow, hp⟩ := BestCut.accept?_eq_some.mp hacc
      have hkind : p'.kind = .minOverlap := by rw [hp]; rfl
      exact ⟨b, hfromOverlap b hb, hbelow, by rw [hkind]; exact hp, .inl hkind⟩
    · cases h

end RTree
