import RTree.Proofs.Sorting
import RTree.Proofs.Split.Balance
import RTree.Split.Overlap
import RTree.Split.Quadratic
import Mathlib.Data.List.Perm.Basic

namespace RTree

variable {α : Type} [Scalar α]

/-- Made without a look at the overlap. -/
structure Partition.Blind (p : Partition α) : Prop where
  kind : p.kind ≠ .minOverlap
  overlapRatio : p.overlapRatio = none

theorem length_runningUnions (start : Rectangle α) (rects : List (Rectangle α)) :
    (runningUnions start rects).length = rects.length := by
  induction rects generalizing start with
  | nil => rfl
  | cons r rects ih => simp [runningUnions, ih]

theorem position_of_mem_cutsOf {sorted : List (Rectangle α)} {least : Nat} {c : Cut α}
    (h : c ∈ cutsOf sorted least) :
    least ≤ c.position ∧ c.position ≤ sorted.length - least := by
  unfold cutsOf at h
  obtain ⟨⟨⟨first, second⟩, position⟩, -, hc⟩ := List.mem_filterMap.mp h
  dsimp only at hc
  split at hc
  · rename_i hp
    obtain rfl := Option.some.inj hc
    rw [Bool.and_eq_true, decide_eq_true_iff, decide_eq_true_iff] at hp
    exact hp
  · cases hc

/-- There is a cut as soon as both sides can have the least number of entries. -/
theorem cutsOf_ne_nil {sorted : List (Rectangle α)} {least : Nat} (hpos : 0 < least)
    (h : 2 * least ≤ sorted.length) : cutsOf sorted least ≠ [] := by
  let start : Rectangle α := Rectangle.empty ((sorted.head?.map Rectangle.dim).getD 0)
  let heads := runningUnions start sorted
  let tails := (runningUnions start sorted.reverse).reverse
  have hlen : (heads.zip tails.tail).length = sorted.length - 1 := by
    simp [heads, tails, length_runningUnions]
  have hlt : least - 1 < (heads.zip tails.tail).length := by omega
  let pair := (heads.zip tails.tail)[least - 1]
  have hmem : (pair, least) ∈ (heads.zip tails.tail).zipIdx 1 := by
    rw [List.mk_mem_zipIdx_iff_le_and_getElem?_sub]
    exact ⟨hpos, List.getElem?_eq_getElem hlt⟩
  have hcut : Cut.between least pair.1 pair.2 ∈ cutsOf sorted least := by
    refine List.mem_filterMap.mpr ⟨(pair, least), hmem, ?_⟩
    have : least ≤ sorted.length - least := by omega
    simp [this]
  exact List.ne_nil_of_mem hcut

section Score

variable {rects : List (Rectangle α)} {axis minimum : Nat} {edge : Edge}

theorem order_scoreSort_perm (rects : List (Rectangle α)) (axis : Nat) (edge : Edge)
    (minimum : Nat) :
    (scoreSort rects axis edge minimum).order.Perm (List.range rects.length) := by
  have h := (stableSort_perm
    (fun a b : Rectangle α × Nat => decide (edge.of a.1 axis < edge.of b.1 axis))
    rects.zipIdx).map Prod.snd
  rwa [List.zipIdx_map_snd, ← List.range_eq_range'] at h

/-- Every cut that was weighed divides the entries into two filled groups. -/
theorem balanced_partitionAt (h : 2 * minimum ≤ rects.length) {c : Cut α}
    (hc : c ∈ (scoreSort rects axis edge minimum).cuts) (kind : PartitionRule) :
    ((scoreSort rects axis edge minimum).partitionAt c kind).Balanced rects.length minimum := by
  have hperm := order_scoreSort_perm rects axis edge minimum
  have hlen : (scoreSort rects axis edge minimum).order.length = rects.length := by
    simpa using hperm.length_eq
  have hpos := position_of_mem_cutsOf hc
  simp only [List.length_map, length_stableSort, List.length_zipIdx] at hpos
  refine ⟨?_, ?_, ?_⟩
  · unfold Partition.entries SortScore.partitionAt
    rw [List.take_append_drop]
    exact hperm
  · change minimum ≤ (List.take c.position _).length
    rw [List.length_take, hlen]
    omega
  · change minimum ≤ (List.drop c.position _).length
    rw [List.length_drop, hlen]
    omega

theorem cuts_scoreSort_ne_nil (rects : List (Rectangle α)) (axis : Nat) (edge : Edge)
    (minimum : Nat) (h : 2 ≤ rects.length) : (scoreSort rects axis edge minimum).cuts ≠ [] := by
  refine cutsOf_ne_nil (by omega) ?_
  simp only [List.length_map, length_stableSort, List.length_zipIdx]
  omega

/-- The place of the best cut and the best cut are found together. -/
theorem SortScore.champion?_zipIdx {s : SortScore α} {place : Nat} {c : Cut α}
    (h : champion? (fun a b : Cut α × Nat => a.1.isBetter b.1) s.cuts.zipIdx = some (c, place)) :
    s.bestIndex? = some place ∧ s.best? = some c := by
  have hmap := champion?_map Cut.isBetter Prod.fst s.cuts.zipIdx
  rw [List.zipIdx_map_fst, h] at hmap
  exact ⟨by rw [bestIndex?, h]; rfl, hmap⟩

end Score

section Choice

variable {rects : List (Rectangle α)} {dimension minimum : Nat} {edges : List Edge}

theorem mem_sorts {e : Edge × Nat} (he : e ∈ sorts dimension edges) :
    e.1 ∈ edges ∧ e.2 < dimension := by
  obtain ⟨edge, hedge, h⟩ := List.mem_flatMap.mp he
  obtain ⟨axis, haxis, rfl⟩ := List.mem_map.mp h
  exact ⟨hedge, List.mem_range.mp haxis⟩

omit [Scalar α] in
theorem axesExist_of_dim {d : Nat} (h : ∀ r ∈ rects, d ≤ r.dim) (edges : List Edge) :
    axesExist rects d edges = true := by
  unfold axesExist
  rw [List.all_eq_true]
  rintro ⟨edge, axis⟩ he
  have haxis := (mem_sorts he).2
  unfold axisExists
  rw [Bool.or_eq_true, List.all_eq_true]
  exact .inr fun r hr => decide_eq_true (haxis.trans_le (h r hr))

theorem exists_leastMarginSort (minimum : Nat) (hd : 0 < dimension) (he : edges ≠ [])
    (h : 2 ≤ rects.length) :
    ∃ edge, ∃ axis < dimension, leastMarginSort rects dimension edges minimum =
      some (scoreSort rects axis edge minimum) := by
  obtain ⟨edge, hedge⟩ := List.exists_mem_of_ne_nil _ he
  let scores := ((sorts dimension edges).map fun e =>
    scoreSort rects e.2 e.1 minimum).filter fun s => !s.cuts.isEmpty
  have hmem : scoreSort rects 0 edge minimum ∈ scores := by
    refine List.mem_filter.mpr ⟨List.mem_map.mpr ⟨(edge, 0), ?_, rfl⟩, ?_⟩
    · exact List.mem_flatMap.mpr ⟨edge, hedge, List.mem_map.mpr ⟨0, List.mem_range.mpr hd, rfl⟩⟩
    · simpa using cuts_scoreSort_ne_nil rects 0 edge minimum h
  obtain ⟨score, hscore, hchosen⟩ := exists_champion?
    (fun s t : SortScore α => decide (s.marginSum < t.marginSum)) (List.ne_nil_of_mem hmem)
  obtain ⟨e, he, rfl⟩ := List.mem_map.mp (List.mem_filter.mp hscore).1
  exact ⟨e.1, e.2, (mem_sorts he).2, hchosen⟩

/-- The split of least margin never has to fall back on halves. -/
theorem leastMargin_eq (minimum : Nat) (hd : 0 < dimension) (he : edges ≠ [])
    (h : 2 ≤ rects.length) :
    ∃ edge, ∃ axis < dimension, ∃ cut ∈ (scoreSort rects axis edge minimum).cuts,
      Partition.leastMargin rects dimension edges minimum =
        (scoreSort rects axis edge minimum).partitionAt cut .margin := by
  obtain ⟨edge, axis, haxis, hsort⟩ := exists_leastMarginSort minimum hd he h
  obtain ⟨cut, hcut, hbest⟩ := exists_champion? Cut.isBetter
    (cuts_scoreSort_ne_nil rects axis edge minimum h)
  refine ⟨edge, axis, haxis, cut, hcut, ?_⟩
  unfold Partition.leastMargin
  rw [hsort]
  simp only [SortScore.best?, hbest]

theorem balanced_leastMargin (hd : 0 < dimension) (he : edges ≠ []) (h2 : 2 ≤ rects.length)
    (h : 2 * minimum ≤ rects.length) :
    (Partition.leastMargin rects dimension edges minimum).Balanced rects.length minimum := by
  obtain ⟨edge, axis, -, cut, hcut, heq⟩ := leastMargin_eq minimum hd he h2
  rw [heq]
  exact balanced_partitionAt h hcut .margin

theorem Partition.blind_leastMargin (rects : List (Rectangle α)) (dimension : Nat)
    (edges : List Edge) (minimum : Nat) : (leastMargin rects dimension edges minimum).Blind := by
  unfold leastMargin
  split
  · exact ⟨by simp [halves], rfl⟩
  · split
    · exact ⟨by simp [halves], rfl⟩
    · exact ⟨by simp [SortScore.partitionAt], rfl⟩

def BestCut.FromSorts (rects : List (Rectangle α)) (dimension minimum : Nat) (b : BestCut α) :
    Prop :=
  ∃ edge, ∃ axis < dimension, b.score = scoreSort rects axis edge minimum ∧ b.cut ∈ b.score.cuts

theorem Finalists.add_fromSorts {f : Finalists α} (chosenAxis : Nat) {axis : Nat} (edge : Edge)
    (haxis : axis < dimension) (hm : ∀ b ∈ f.margin, b.FromSorts rects dimension minimum)
    (ho : ∀ b ∈ f.overlap, b.FromSorts rects dimension minimum) :
    (∀ b ∈ (f.add chosenAxis (scoreSort rects axis edge minimum)).margin,
        b.FromSorts rects dimension minimum) ∧
      ∀ b ∈ (f.add chosenAxis (scoreSort rects axis edge minimum)).overlap,
        b.FromSorts rects dimension minimum := by
  unfold Finalists.add
  cases hbest : (scoreSort rects axis edge minimum).best? with
  | none =>
    dsimp only
    exact ⟨hm, ho⟩
  | some cut =>
    have hnew : BestCut.FromSorts rects dimension minimum
        ⟨scoreSort rects axis edge minimum, cut⟩ :=
      ⟨edge, axis, haxis, rfl, champion?_mem hbest⟩
    dsimp only
    constructor
    · intro b hb
      cases hf : f.margin with
      | none =>
        simp only [hf, Option.mem_some_iff] at hb
        exact hb ▸ hnew
      | some best =>
        simp only [hf] at hb
        split at hb
        · rw [Option.mem_some_iff] at hb
          exact hb ▸ hnew
        · exact hm b (hf ▸ hb)
    · intro b hb
      split at hb
      · cases hf : f.overlap with
        | none =>
          simp only [hf, Option.mem_some_iff] at hb
          exact hb ▸ hnew
        | some best =>
          simp only [hf] at hb
          split at hb
          · rw [Option.mem_some_iff] at hb
            exact hb ▸ hnew
          · exact ho b (hf ▸ hb)
      · exact ho b hb

theorem foldl_finalists_fromSorts (rects : List (Rectangle α)) (minimum chosenAxis : Nat)
    (es : List (Edge × Nat)) (hes : ∀ e ∈ es, e.2 < dimension) {f : Finalists α}
    (hm : ∀ b ∈ f.margin, b.FromSorts rects dimension minimum)
    (ho : ∀ b ∈ f.overlap, b.FromSorts rects dimension minimum) :
    (∀ b ∈ (es.foldl (fun (f : Finalists α) (edge, axis) =>
        f.add chosenAxis (scoreSort rects axis edge minimum)) f).margin,
        b.FromSorts rects dimension minimum) ∧
      ∀ b ∈ (es.foldl (fun (f : Finalists α) (edge, axis) =>
        f.add chosenAxis (scoreSort rects axis edge minimum)) f).overlap,
        b.FromSorts rects dimension minimum := by
  induction es generalizing f with
  | nil => exact ⟨hm, ho⟩
  | cons e es ih =>
    obtain ⟨h1, h2⟩ := Finalists.add_fromSorts chosenAxis e.1 (hes e List.mem_cons_self) hm ho
    exact ih (fun e he => hes e (List.mem_cons_of_mem _ he)) h1 h2

end Choice

section Quadratic

def placed (rects : List (Rectangle α)) : List (Nat × Rectangle α) :=
  rects.zipIdx.map fun (r, i) => (i, r)

omit [Scalar α] in
theorem mem_placed {rects : List (Rectangle α)} {i : Nat} {r : Rectangle α} :
    (i, r) ∈ placed rects ↔ rects[i]? = some r := by
  simp [placed, List.mk_mem_zipIdx_iff_getElem?]

omit [Scalar α] in
theorem map_fst_placed (rects : List (Rectangle α)) :
    (placed rects).map Prod.fst = List.range rects.length := by
  rw [List.range_eq_range', ← List.zipIdx_map_snd, placed, List.map_map]
  rfl

omit [Scalar α] in
theorem placed_increasing (rects : List (Rectangle α)) :
    ((placed rects).map Prod.fst).Pairwise (· < ·) := by
  rw [map_fst_placed]
  exact List.pairwise_lt_range

omit [Scalar α] in
theorem map_snd_placed (rects : List (Rectangle α)) : (placed rects).map Prod.snd = rects := by
  rw [placed, List.map_map]
  exact List.zipIdx_map_fst 0 rects

def othersThan (rects : List (Rectangle α)) (i j : Nat) : List (Nat × Rectangle α) :=
  (placed rects).filter fun e => e.1 != i && e.1 != j

omit [Scalar α] in
theorem map_fst_othersThan (rects : List (Rectangle α)) (i j : Nat) :
    (othersThan rects i j).map Prod.fst =
      (List.range rects.length).filter fun k => k != i && k != j := by
  rw [← map_fst_placed, List.filter_map]
  rfl

theorem seedPairs_lt {xs : List (Nat × Rectangle α)} (hs : (xs.map Prod.fst).Pairwise (· < ·))
    {s : SeedPair α} (h : s ∈ seedPairs xs) :
    s.first < s.second ∧ s.first ∈ xs.map Prod.fst ∧ s.second ∈ xs.map Prod.fst := by
  induction xs with
  | nil => cases h
  | cons x xs ih =>
    obtain ⟨i, r⟩ := x
    rw [List.map_cons, List.pairwise_cons] at hs
    rcases List.mem_append.mp h with h | h
    · obtain ⟨⟨j, s'⟩, hj, rfl⟩ := List.mem_map.mp h
      have hjm : j ∈ xs.map Prod.fst := List.mem_map.mpr ⟨_, hj, rfl⟩
      exact ⟨hs.1 j hjm, by simp, List.mem_cons_of_mem _ hjm⟩
    · obtain ⟨h1, h2, h3⟩ := ih hs.2 h
      exact ⟨h1, List.mem_cons_of_mem _ h2, List.mem_cons_of_mem _ h3⟩

/-- The seeds are two different entries. -/
theorem bestSeeds_lt {rects : List (Rectangle α)} (h : 2 ≤ rects.length) :
    (bestSeeds rects).first < (bestSeeds rects).second ∧
      (bestSeeds rects).second < rects.length := by
  have hmem := champion_mem SeedPair.isBetter
    (⟨0, 1, Scalar.bottom, Scalar.bottom⟩ : SeedPair α) (seedPairs (placed rects))
  change bestSeeds rects ∈ _ at hmem
  rcases List.mem_cons.mp hmem with hd | hp
  · rw [hd]
    exact ⟨Nat.zero_lt_one, h⟩
  · have := seedPairs_lt (placed_increasing rects) hp
    rw [map_fst_placed, List.mem_range, List.mem_range] at this
    exact ⟨this.1, this.2.2⟩

theorem place_nextEntry_lt {first second : Cluster α} {waiting : List (Nat × Rectangle α)}
    (h : waiting ≠ []) : (nextEntry first second waiting).place < waiting.length := by
  unfold nextEntry
  have hmem := champion_mem
    (fun p q : Preference α => decide (q.difference < p.difference))
    ⟨0, (Scalar.zero, Scalar.zero), Scalar.bottom⟩
    (waiting.zipIdx.map fun x =>
      let growth := (first.bound.enlargement x.1.2, second.bound.enlargement x.1.2)
      (⟨x.2, growth, Scalar.abs (growth.1 - growth.2)⟩ : Preference α))
  rcases List.mem_cons.mp hmem with hd | hp
  · rw [hd]
    exact List.length_pos_of_ne_nil h
  · obtain ⟨⟨⟨i, r⟩, place⟩, hz, heq⟩ := List.mem_map.mp hp
    rw [← heq]
    have := (List.mk_mem_zipIdx_iff_getElem?.mp hz)
    exact (List.getElem?_eq_some_iff.mp this).1

/-- Handing out keeps every entry, and leaves each group the minimum if it could reach it. -/
theorem distribute_spec (minimum : Nat) {fuel : Nat} (first second : Cluster α)
    (waiting : List (Nat × Rectangle α)) (hf : waiting.length ≤ fuel)
    (htotal : 2 * minimum ≤ first.entries.length + second.entries.length + waiting.length)
    (h1 : minimum ≤ first.entries.length + waiting.length)
    (h2 : minimum ≤ second.entries.length + waiting.length) :
    ((distribute minimum fuel first second waiting).1 ++
        (distribute minimum fuel first second waiting).2).Perm
      (first.entries ++ second.entries ++ waiting.map Prod.fst) ∧
    minimum ≤ (distribute minimum fuel first second waiting).1.length ∧
    minimum ≤ (distribute minimum fuel first second waiting).2.length := by
  induction fuel generalizing first second waiting with
  | zero =>
    obtain rfl : waiting = [] := List.eq_nil_of_length_eq_zero (by omega)
    simp only [distribute, List.map_nil, List.append_nil, List.length_nil] at h1 h2 ⊢
    exact ⟨.refl _, h1, h2⟩
  | succ fuel ih =>
    unfold distribute
    split
    · rename_i hempty
      obtain rfl : waiting = [] := List.isEmpty_iff.mp hempty
      simp only [List.map_nil, List.append_nil, List.length_nil] at h1 h2 ⊢
      exact ⟨.refl _, h1, h2⟩
    · rename_i hne
      have hw : waiting ≠ [] := fun h => hne (List.isEmpty_iff.mpr h)
      split
      · -- the first group needs all that is left
        refine ⟨?_, by simpa using h1, by dsimp only; omega⟩
        rw [List.append_assoc, List.append_assoc]
        exact List.perm_append_comm.append_left _
      · split
        · refine ⟨by simp, by dsimp only; omega, by simpa using h2⟩
        · have hlt : (nextEntry first second waiting).place < waiting.length :=
            place_nextEntry_lt hw
          dsimp only
          rw [List.getElem?_eq_getElem hlt]
          dsimp only
          let place := (nextEntry first second waiting).place
          have hrest : (waiting.eraseIdx place).length = waiting.length - 1 :=
            List.length_eraseIdx_of_lt hlt
          have hperm : (waiting[place].1 :: (waiting.eraseIdx place).map Prod.fst).Perm
              (waiting.map Prod.fst) := (List.getElem_cons_eraseIdx_perm hlt).map Prod.fst
          have hpos := List.length_pos_of_ne_nil hw
          split
          · obtain ⟨hp, hm1, hm2⟩ := ih (first.add waiting[place]) second
              (waiting.eraseIdx place) (by omega)
              (by simp only [Cluster.add, List.length_append, List.length_singleton]; omega)
              (by simp only [Cluster.add, List.length_append, List.length_singleton]; omega)
              (by omega)
            refine ⟨hp.trans ?_, hm1, hm2⟩
            simp only [Cluster.add, List.append_assoc, List.singleton_append]
            exact (List.perm_middle.symm.trans (hperm.append_left _)).append_left _
          · obtain ⟨hp, hm1, hm2⟩ := ih first (second.add waiting[place])
              (waiting.eraseIdx place) (by omega)
              (by simp only [Cluster.add, List.length_append, List.length_singleton]; omega)
              (by omega)
              (by simp only [Cluster.add, List.length_append, List.length_singleton]; omega)
            refine ⟨hp.trans ?_, hm1, hm2⟩
            simp only [Cluster.add, List.append_assoc, List.singleton_append]
            exact (hperm.append_left _).append_left _

/-- The seeds and the entries that wait are all entries. -/
theorem seeds_perm {count i j : Nat} (hij : i < j) (hj : j < count) :
    (i :: j :: (List.range count).filter fun k => k != i && k != j).Perm (List.range count) := by
  rw [List.perm_ext_iff_of_nodup]
  · intro k
    simp only [List.mem_cons, List.mem_filter, List.mem_range, Bool.and_eq_true, bne_iff_ne]
    omega
  · refine List.nodup_cons.mpr ⟨?_, List.nodup_cons.mpr ⟨?_, List.nodup_range.filter _⟩⟩
    · simp only [List.mem_cons, List.mem_filter, bne_self_eq_false, Bool.false_and]
      simp [Nat.ne_of_lt hij]
    · simp
  · exact List.nodup_range

/-- Two seeds and all other entries waiting end up in two filled groups. -/
theorem distribute_seeds {count i j minimum : Nat} (hij : i < j) (hj : j < count)
    (h : 2 * minimum ≤ count) (r s : Rectangle α) {waiting : List (Nat × Rectangle α)}
    (hw : waiting.map Prod.fst = (List.range count).filter fun k => k != i && k != j) :
    ((distribute minimum waiting.length ⟨[i], r⟩ ⟨[j], s⟩ waiting).1 ++
        (distribute minimum waiting.length ⟨[i], r⟩ ⟨[j], s⟩ waiting).2).Perm (List.range count) ∧
      minimum ≤ (distribute minimum waiting.length ⟨[i], r⟩ ⟨[j], s⟩ waiting).1.length ∧
      minimum ≤ (distribute minimum waiting.length ⟨[i], r⟩ ⟨[j], s⟩ waiting).2.length := by
  have hperm := seeds_perm hij hj
  rw [← hw] at hperm
  have hlen : waiting.length + 2 = count := by
    simpa using hperm.length_eq
  obtain ⟨hp, hm1, hm2⟩ := distribute_spec minimum (⟨[i], r⟩ : Cluster α) ⟨[j], s⟩
    waiting (Nat.le_refl _)
    (by simp only [List.length_singleton]; omega) (by simp only [List.length_singleton]; omega)
    (by simp only [List.length_singleton]; omega)
  exact ⟨hp.trans hperm, hm1, hm2⟩

theorem balanced_quadratic {rects : List (Rectangle α)} {minimum : Nat}
    (h : 2 * minimum ≤ rects.length) :
    (Partition.quadratic rects minimum).Balanced rects.length minimum := by
  unfold Partition.quadratic
  split
  · exact Partition.balanced_halves h
  · exact Partition.balanced_halves h
  · rename_i r s rest
    split
    · exact Partition.balanced_halves h
    · obtain ⟨hij, hj⟩ := bestSeeds_lt (show 2 ≤ (r :: s :: rest).length by simp)
      obtain ⟨hp, hm1, hm2⟩ := distribute_seeds hij hj h
        ((r :: s :: rest).getD (bestSeeds (r :: s :: rest)).first r)
        ((r :: s :: rest).getD (bestSeeds (r :: s :: rest)).second r) (map_fst_othersThan _ _ _)
      exact ⟨hp, hm1, hm2⟩

theorem Partition.blind_quadratic (rects : List (Rectangle α)) (minimum : Nat) :
    (quadratic rects minimum).Blind := by
  unfold quadratic
  split
  · exact ⟨by simp [halves], rfl⟩
  · exact ⟨by simp [halves], rfl⟩
  · split
    · exact ⟨by simp [halves], rfl⟩
    · exact ⟨by simp, rfl⟩

end Quadratic

end RTree
