import RTree.Proofs.Rectangle.Hull
import RTree.Proofs.Scalar.Steady
import RTree.Split.Margin

namespace RTree

open OrderedScalar SteadyScalar
open Scalar (isNumber)

variable {α : Type} [Scalar α]

/-- The overlap as a part of both volumes, zero when both rectangles are flat. -/
def Rectangle.overlapRatio (r s : Rectangle α) : α :=
  if Scalar.zero < r.volume + s.volume then r.overlap s / (r.volume + s.volume) else Scalar.zero

/-- A cut is weighed by the overlap ratio of its halves. -/
theorem Cut.overlapRatio_between (position : Nat) (r s : Rectangle α) :
    (Cut.between position r s).overlapRatio = r.overlapRatio s := rfl

/-- Both edges count as equal or are no numbers. -/
structure Range.Alike (r s : Range α) : Prop where
  lo : Scalar.Alike r.lo s.lo
  hi : Scalar.Alike r.hi s.hi

def Rectangle.Alike (r s : Rectangle α) : Prop := List.Forall₂ Range.Alike r.ranges s.ranges

variable [SteadyScalar α]

namespace Range

variable {r r' s s' : Range α}

omit [SteadyScalar α] in
theorem Alike.refl (r : Range α) : r.Alike r := ⟨.refl _, .refl _⟩

omit [SteadyScalar α] in
theorem alike_of_beq (h : (r == s) = true) : r.Alike s := by
  obtain ⟨hlo, hhi⟩ := beq_iff.mp h
  exact ⟨.inl hlo, .inl hhi⟩

theorem Alike.isEmpty (h : r.Alike s) : r.isEmpty = s.isEmpty :=
  decide_eq_decide.mpr (h.hi.lt_iff_lt h.lo)

theorem Alike.width (h : r.Alike s) : Scalar.Alike r.width s.width := by
  unfold Range.width
  rw [h.isEmpty]
  split
  · exact .refl _
  · exact sub_alike h.hi h.lo

theorem Alike.overlap (hr : r.Alike r') (hs : s.Alike s') :
    Scalar.Alike (r.overlap s) (r'.overlap s') := by
  unfold Range.overlap
  simp only [hr.hi.lt_iff_lt hs.lo, hs.hi.lt_iff_lt hr.lo]
  split
  · exact .refl _
  · exact (sub_alike (hr.hi.min hs.hi) (hr.lo.max hs.lo)).max (.refl _)

theorem overlap_nonneg (r s : Range α) : Scalar.zero ≤ r.overlap s := by
  have hzero : isNumber (Scalar.zero : α) = true := (isNumber_of_le SteadyScalar.zero_le_one).1
  unfold overlap
  split
  · exact Scalar.le_self_iff.mpr hzero
  · exact Scalar.le_max_right _ hzero

end Range

namespace Rectangle

variable {r r' s s' : Rectangle α}

omit [SteadyScalar α] in
theorem Alike.refl (r : Rectangle α) : r.Alike r := by
  unfold Alike
  induction r.ranges with
  | nil => exact .nil
  | cons range ranges ih => exact .cons (.refl range) ih

omit [SteadyScalar α] in
theorem alike_of_beq (h : (r == s) = true) : r.Alike s :=
  (forall₂_of_beq h).imp fun _ _ => Range.alike_of_beq

theorem Alike.isEmpty (h : r.Alike s) : r.isEmpty = s.isEmpty := by
  have hany : ∀ {rs ss : List (Range α)}, List.Forall₂ Range.Alike rs ss →
      rs.any Range.isEmpty = ss.any Range.isEmpty := by
    intro rs ss h
    induction h with
    | nil => rfl
    | cons hr _ ih => rw [List.any_cons, List.any_cons, hr.isEmpty, ih]
  exact hany h

theorem Alike.widths (h : r.Alike s) :
    List.Forall₂ Scalar.Alike (r.ranges.map Range.width) (s.ranges.map Range.width) := by
  rw [List.forall₂_map_left_iff, List.forall₂_map_right_iff]
  exact List.Forall₂.imp (fun _ _ => Range.Alike.width) h

theorem Alike.margin (h : r.Alike s) : Scalar.Alike r.margin s.margin :=
  Scalar.sum_alike h.widths

theorem Alike.volume (h : r.Alike s) : Scalar.Alike r.volume s.volume := by
  unfold Rectangle.volume
  rw [h.isEmpty]
  split
  · exact .refl _
  · exact Scalar.product_alike h.widths

theorem forall₂_zipWith_overlap {rs rs' ss ss' : List (Range α)}
    (hr : List.Forall₂ Range.Alike rs rs') (hs : List.Forall₂ Range.Alike ss ss') :
    List.Forall₂ Scalar.Alike (List.zipWith Range.overlap rs ss)
      (List.zipWith Range.overlap rs' ss') := by
  induction hr generalizing ss ss' with
  | nil => exact .nil
  | cons hr _ ih =>
    cases hs with
    | nil => exact .nil
    | cons hs hss => exact .cons (hr.overlap hs) (ih hss)

theorem Alike.overlap (hr : r.Alike r') (hs : s.Alike s') :
    Scalar.Alike (r.overlap s) (r'.overlap s') := by
  unfold Rectangle.overlap
  rw [hr.isEmpty, hs.isEmpty]
  split
  · exact .refl _
  · exact Scalar.product_alike (forall₂_zipWith_overlap hr hs)

theorem Alike.overlapRatio (hr : r.Alike r') (hs : s.Alike s') :
    Scalar.Alike (r.overlapRatio s) (r'.overlapRatio s') := by
  have harea := add_alike hr.volume hs.volume
  have hpos := (Scalar.Alike.refl (Scalar.zero : α)).lt_iff_lt harea
  unfold Rectangle.overlapRatio
  by_cases hlt : Scalar.zero < r.volume + s.volume
  · rw [if_pos hlt, if_pos (hpos.mp hlt)]
    exact div_alike (hr.overlap hs) harea hlt
  · rw [if_neg hlt, if_neg (fun hlt' => hlt (hpos.mpr hlt'))]
    exact .refl _

theorem overlap_nonneg (r s : Rectangle α) (h : isNumber (r.overlap s) = true) :
    Scalar.zero ≤ r.overlap s := by
  unfold overlap at h ⊢
  split
  · exact Scalar.le_self_iff.mpr (isNumber_of_le SteadyScalar.zero_le_one).1
  · rename_i hne
    rw [if_neg hne] at h
    apply Scalar.product_nonneg _ h
    intro x hx
    obtain ⟨i, hi, rfl⟩ := List.getElem_of_mem hx
    rw [List.getElem_zipWith]
    exact Range.overlap_nonneg _ _

theorem overlapRatio_nonneg (r s : Rectangle α) (h : isNumber (r.overlapRatio s) = true) :
    Scalar.zero ≤ r.overlapRatio s := by
  unfold overlapRatio at h ⊢
  split
  · rename_i hlt
    rw [if_pos hlt] at h
    exact div_nonneg (overlap_nonneg r s (isNumber_of_div h)) hlt h
  · exact Scalar.le_self_iff.mpr (isNumber_of_le SteadyScalar.zero_le_one).1

end Rectangle

end RTree
