import RTree.Proofs.Split.Finalists
import RTree.Proofs.Tree.Shape
import RTree.Scalar.Binary64

namespace RTree

variable {α : Type}

/-- Each place below `count` is in one of the groups and in no other place of either, and both
groups have `least` to `most` entries. -/
structure Partition.Within (p : Partition α) (count least most : Nat) : Prop where
  perm : p.entries.Perm (List.range count)
  first : least ≤ p.first.length ∧ p.first.length ≤ most
  second : least ≤ p.second.length ∧ p.second.length ≤ most

/-- What one group has beyond the minimum, the other does not have. -/
theorem Partition.Balanced.within {p : Partition α} {count least most : Nat}
    (h : p.Balanced count least) (hmost : count ≤ most + least) : p.Within count least most := by
  have hsum := h.length_add_length
  have hfirst := h.le_first
  have hsecond := h.le_second
  exact ⟨h.perm, ⟨hfirst, by omega⟩, ⟨hsecond, by omega⟩⟩

variable [Scalar α]

theorem SortScore.exists_best {s : SortScore α} (h : s.cuts ≠ []) :
    ∃ place cut, s.bestIndex? = some place ∧ s.cuts[place]? = some cut ∧ s.best? = some cut := by
  have hne : s.cuts.zipIdx ≠ [] := by simpa using h
  obtain ⟨⟨cut, place⟩, hmem, hchosen⟩ :=
    exists_champion? (fun a b : Cut α × Nat => a.1.isBetter b.1) hne
  obtain ⟨hindex, hbest⟩ := champion?_zipIdx hchosen
  exact ⟨place, cut, hindex, List.mem_zipIdx_iff_getElem?.mp hmem, hbest⟩

/-- Every rule divides the entries within the limits. The rule by margin is not stuck on the way: it
can sort along every axis, one of the sorts has the least margins, and one of its cuts is the best,
whatever the partition at that cut is then marked as. -/
structure Divides (rects : List (Rectangle α)) (dimension least most : Nat) : Prop where
  quadratic : (Partition.quadratic rects least).Within rects.length least most
  margin : ∀ edges ≠ [], axesExist rects dimension edges = true ∧
    ∃ score, leastMarginSort rects dimension edges least = some score ∧
      ∃ place cut, score.bestIndex? = some place ∧ score.cuts[place]? = some cut ∧
        score.best? = some cut ∧
        ∀ kind, (score.partitionAt cut kind).Within rects.length least most
  overlap : ∀ histories limit p,
    overlapDecision rects histories dimension least limit = .partition p →
      p.Within rects.length least most
  halves : (Partition.halves rects.length : Partition α).Within rects.length least most

theorem divides_of_le {rects : List (Rectangle α)} {dimension least most : Nat}
    (hdimension : 0 < dimension) (hdim : ∀ r ∈ rects, r.dim = dimension) (hpos : 0 < least)
    (hleast : 2 * least ≤ rects.length) (hmost : rects.length ≤ most + least) :
    Divides rects dimension least most where
  quadratic := (balanced_quadratic hleast).within hmost
  margin := by
    intro edges hedges
    have htwo : 2 ≤ rects.length := by omega
    obtain ⟨edge, axis, -, hscore⟩ := exists_leastMarginSort least hdimension hedges htwo
    obtain ⟨place, cut, hplace, hcut, hbest⟩ :=
      SortScore.exists_best (cuts_scoreSort_ne_nil rects axis edge least htwo)
    have hbalanced := balanced_partitionAt hleast (List.mem_of_getElem? hcut)
    exact ⟨axesExist_of_dim (fun r hr => (hdim r hr).ge) edges, _, hscore, place, cut, hplace,
      hcut, hbest, fun kind => (hbalanced kind).within hmost⟩
  overlap := by
    intro histories limit p h
    obtain ⟨b, hb⟩ := exists_accepted h
    exact (hb.balanced hleast).within hmost
  halves := (Partition.balanced_halves hleast).within hmost

/-- Entries for two groups are divided into two groups, neither of which takes what the other needs;
and under a configuration that is accepted, one entry more than fits makes two groups that fit. -/
theorem divisions_within_limits (α : Type) [Scalar α] :
    (∀ (rects : List (Rectangle α)) (dimension least : Nat), 1 ≤ dimension →
      (∀ r ∈ rects, r.dim = dimension) → 1 ≤ least → 2 * least ≤ rects.length →
        Divides rects dimension least (rects.length - least)) ∧
    ∀ (c : Config α), c.validate = .ok () → ∀ (rects : List (Rectangle α)),
      (∀ r ∈ rects, r.dim = c.dimension) →
        (rects.length = c.maxLeafSize + 1 →
          Divides rects c.dimension c.minLeafSize c.maxLeafSize) ∧
        (rects.length = c.maxChildren + 1 →
          Divides rects c.dimension c.minChildren c.maxChildren) := by
  refine ⟨?_, ?_⟩
  · intro rects dimension least hdimension hdim hpos hleast
    exact divides_of_le hdimension hdim hpos hleast (by omega)
  · intro c hvalid rects hdim
    have hc := Config.feasible_of_validate hvalid
    have hleaf := hc.leaf_halves
    have hchild := hc.child_halves
    have hleafPos := hc.minLeafSize_pos
    have hchildPos := hc.minChildren_pos
    refine ⟨fun hlen => ?_, fun hlen => ?_⟩
    · exact divides_of_le hc.dimension_pos hdim hleafPos (by omega) (by omega)
    · exact divides_of_le hc.dimension_pos hdim hchildPos (by omega) (by omega)

/-- Five flat rectangles above one another, too wide for their widths to be finite. -/
def vast : List (Rectangle Float) := [0, 1, 2, 3, 4].map fun y => ⟨[⟨-1e308, 1e308⟩, ⟨y, y⟩]⟩

def fourWide : Config Float :=
  { (default : Config Float) with
    minLeafSize := 2, maxLeafSize := 4, minChildren := 2, maxChildren := 4 }

/-- No dead space and no overlap among the five is a number, and they are divided all the same. -/
theorem divisions_within_limits_vast :
    (∀ r ∈ vast, ∀ s ∈ vast, (r.deadSpace s == r.deadSpace s) = false) ∧
    (∀ cut ∈ (scoreSort vast 0 .low 2).cuts, (cut.overlap == cut.overlap) = false) ∧
    (Partition.quadratic vast 2).first = [0, 4] ∧
    (Partition.quadratic vast 2).second = [1, 2, 3] ∧
    Divides vast 2 2 3 ∧
    Divides vast 2 fourWide.minLeafSize fourWide.maxLeafSize ∧
    Divides vast 2 fourWide.minChildren fourWide.maxChildren := by
  obtain ⟨hrules, hconfig⟩ := divisions_within_limits Float
  have hdim : ∀ r ∈ vast, r.dim = 2 := by decide
  have hrule : Divides vast 2 2 3 := hrules vast 2 2 (by decide) hdim (by decide) (by decide)
  have hvalid : fourWide.validate = .ok () := rfl
  obtain ⟨hleaf, hchild⟩ := hconfig fourWide hvalid vast hdim
  refine ⟨?_, ?_, ?_, ?_, hrule, hleaf rfl, hchild rfl⟩ <;> decide +kernel

end RTree
