import RTree.Proofs.Rectangle.Solid
import RTree.Tree.ChooseSubtree
import Mathlib.Algebra.Order.BigOperators.Group.List

namespace RTree

variable [SquareRoot]

open Exact (finite)

namespace Exact

/-- Two finite values, the second at least as large as the first and neither negative. -/
def Grows (a b : Exact) : Prop := ∃ q r : Rat, a = finite q ∧ b = finite r ∧ 0 ≤ q ∧ q ≤ r

def value : Exact → Rat
  | finite q => q
  | _ => 0

@[simp] theorem finite_beq (a b : Rat) : (finite a == finite b) = decide (a = b) := by
  rw [beq_def, Bool.eq_iff_iff]
  simp [le, le_antisymm_iff]

omit [SquareRoot] in
theorem Grows.eq_finite {a b : Exact} (h : Grows a b) :
    a = finite a.value ∧ b = finite b.value ∧ 0 ≤ a.value ∧ a.value ≤ b.value := by
  obtain ⟨q, r, rfl, rfl, hq, hqr⟩ := h
  exact ⟨rfl, rfl, hq, hqr⟩

/-- A product grows with its factors. -/
theorem grows_product {as bs : List Exact} (h : List.Forall₂ Grows as bs) :
    Grows (Scalar.product as) (Scalar.product bs) := by
  obtain ⟨qs, rs, rfl, rfl, hall⟩ : ∃ qs rs : List Rat, as = qs.map finite ∧ bs = rs.map finite ∧
      List.Forall₂ (fun q r => 0 ≤ q ∧ q ≤ r) qs rs := by
    induction h with
    | nil => exact ⟨[], [], rfl, rfl, .nil⟩
    | cons hab _ ih =>
      obtain ⟨q, r, rfl, rfl, hqr⟩ := hab
      obtain ⟨qs, rs, rfl, rfl, hall⟩ := ih
      exact ⟨q :: qs, r :: rs, rfl, rfl, .cons hqr hall⟩
  obtain ⟨hpos, hle⟩ := prod_le_prod_of_forall₂ hall
  exact ⟨qs.prod, rs.prod, product_finite qs, product_finite rs, hpos, hle⟩

theorem sum_finite (qs : List Rat) : Scalar.sum (qs.map finite) = finite qs.sum := by
  have hfold : ∀ q : Rat, (qs.map finite).foldl (· + ·) (finite q) = finite (q + qs.sum) := by
    induction qs with
    | nil => simp
    | cons a qs ih =>
      intro q
      rw [List.map_cons, List.foldl_cons, finite_add, ih, List.sum_cons, add_assoc]
  exact (hfold 0).trans (by rw [zero_add])

end Exact

open Exact (Grows)

namespace Range

variable {q r s : Range Exact}

theorem Solid.width_union (hr : r.Solid) (hs : s.Solid) : Grows r.width (r.union s).width := by
  have hunion := hr.union hs
  obtain ⟨a, b, hab, rfl⟩ := hr.eq
  obtain ⟨a', b', hab', rfl⟩ := hs.eq
  have h1 := min_le_left a a'
  have h2 := le_max_left b b'
  rw [union_finite, width_finite hab, width_finite (by linarith)]
  exact ⟨_, _, rfl, rfl, by linarith, by linarith⟩

/-- A range overlaps others no less after it has grown. -/
theorem Solid.overlap_union (hr : r.Solid) (hs : s.Solid) (hq : q.Solid) :
    Grows (r.overlap q) ((r.union s).overlap q) := by
  obtain ⟨a, b, -, rfl⟩ := hr.eq
  obtain ⟨a', b', -, rfl⟩ := hs.eq
  obtain ⟨c, d, -, rfl⟩ := hq.eq
  rw [union_finite, overlap_finite, overlap_finite]
  refine ⟨_, _, rfl, rfl, le_max_right _ _, max_le_max_right 0 ?_⟩
  gcongr
  · exact le_max_left b b'
  · exact min_le_left a a'

theorem Solid.insert_eq_self {v : Exact} (hr : r.Solid) (hv : r.contains v = true) :
    r.insert v = r := by
  obtain ⟨a, b, -, rfl⟩ := hr.eq
  obtain ⟨hlo, hhi⟩ := contains_iff.mp hv
  cases v with
  | finite x =>
    rw [Exact.finite_le] at hlo hhi
    rw [insert_eq_union, single, union_finite, min_eq_left hlo, max_eq_left hhi]
  | infinity => cases hhi
  | negInfinity => cases hlo
  | noNumber => cases hlo

end Range

namespace Rectangle

variable {d : Nat} {r s q : Rectangle Exact} {p : List Exact} {others : List (Rectangle Exact)}

theorem Solid.volume_union (hr : r.Solid d) (hs : s.Solid d) :
    Grows r.volume (r.union s).volume := by
  have hdim : r.ranges.length = s.ranges.length := hr.dim.trans hs.dim.symm
  rw [hr.volume_eq, (hr.union hs).volume_eq]
  apply Exact.grows_product
  rw [List.forall₂_iff_get]
  refine ⟨by simp [Rectangle.union, hdim], fun i hi hi' => ?_⟩
  simp only [Rectangle.union, List.get_eq_getElem, List.getElem_map, List.getElem_zipWith]
  exact (hr.ranges _ (List.getElem_mem _)).width_union (hs.ranges _ (List.getElem_mem _))

theorem Solid.overlap_union (hr : r.Solid d) (hs : s.Solid d) (hq : q.Solid d) :
    Grows (r.overlap q) ((r.union s).overlap q) := by
  have hdim : r.ranges.length = s.ranges.length := hr.dim.trans hs.dim.symm
  rw [hr.overlap_eq hq, (hr.union hs).overlap_eq hq]
  apply Exact.grows_product
  rw [List.forall₂_iff_get]
  refine ⟨by simp [Rectangle.union, hdim], fun i hi hi' => ?_⟩
  simp only [Rectangle.union, List.get_eq_getElem, List.getElem_zipWith]
  exact (hr.ranges _ (List.getElem_mem _)).overlap_union (hs.ranges _ (List.getElem_mem _))
    (hq.ranges _ (List.getElem_mem _))

/-- A point that is held already changes nothing. -/
theorem Solid.insert_eq_self (hr : r.Solid d) (hp : p.length = d) (h : r.contains p = true) :
    r.insert p = r := by
  have hlength : r.ranges.length = p.length := hr.dim.trans hp.symm
  apply congrArg Rectangle.mk
  apply List.ext_getElem (by simp [hlength])
  intro i hi hi'
  have hi'' : i < p.length := hlength ▸ hi'
  have hheld : (r.ranges[i]).contains p[i] = true := by
    have hi₀ : i < (List.zipWith Range.contains r.ranges p).length := by simp [hi', hi'']
    simpa using List.all_eq_true.mp h _ (List.getElem_mem hi₀)
  rw [List.getElem_zipWith]
  exact (hr.ranges _ (List.getElem_mem hi')).insert_eq_self hheld

/-- Taking in a point adds to the volume or leaves it alone. -/
theorem Solid.pointEnlargement (hr : r.Solid d) (hp : FinitePoint d p) :
    ∃ g : Rat, r.pointEnlargement p = finite g ∧ 0 ≤ g := by
  obtain ⟨v, w, hv, hw, -, hle⟩ := hr.volume_union hp.solid
  refine ⟨w - v, ?_, by linarith⟩
  rw [Rectangle.pointEnlargement, insert_eq_union, hv, hw, Exact.finite_sub]

/-- Taking in a point adds to the overlap with others or leaves it alone. -/
theorem Solid.overlapGrowth (hr : r.Solid d) (hp : FinitePoint d p)
    (ho : ∀ q ∈ others, q.Solid d) :
    ∃ o g : Rat, Scalar.sum (others.map r.overlap) = finite o ∧
      r.overlapGrowth others p = finite g ∧ 0 ≤ g ∧
        Scalar.sum (others.map (r.insert p).overlap) = finite (o + g) := by
  let before : Rectangle Exact → Rat := fun q => (r.overlap q).value
  let after : Rectangle Exact → Rat := fun q => ((r.insert p).overlap q).value
  have hgrows : ∀ q ∈ others, r.overlap q = finite (before q) ∧
      (r.insert p).overlap q = finite (after q) ∧ 0 ≤ before q ∧ before q ≤ after q := by
    intro q hq
    have h := hr.overlap_union hp.solid (ho q hq)
    rw [← insert_eq_union] at h
    exact h.eq_finite
  have hbefore : others.map r.overlap = (others.map before).map finite := by
    rw [List.map_map]
    exact List.map_congr_left fun q hq => (hgrows q hq).1
  have hafter : others.map (r.insert p).overlap = (others.map after).map finite := by
    rw [List.map_map]
    exact List.map_congr_left fun q hq => (hgrows q hq).2.1
  have hgrowth : (others.map fun q => (r.insert p).overlap q - r.overlap q) =
      (others.map fun q => after q - before q).map finite := by
    rw [List.map_map]
    refine List.map_congr_left fun q hq => ?_
    obtain ⟨hq, hq', -, -⟩ := hgrows q hq
    rw [hq, hq', Exact.finite_sub]
    rfl
  refine ⟨(others.map before).sum, (others.map fun q => after q - before q).sum, ?_, ?_, ?_, ?_⟩
  · rw [hbefore, Exact.sum_finite]
  · rw [Rectangle.overlapGrowth, hgrowth, Exact.sum_finite]
  · apply List.sum_nonneg
    intro g hg
    obtain ⟨q, hq, rfl⟩ := List.mem_map.mp hg
    exact sub_nonneg.mpr (hgrows q hq).2.2.2
  · rw [hafter, Exact.sum_finite, ← List.sum_map_add]
    simp

theorem Solid.volume_insert (hr : r.Solid d) (hp : FinitePoint d p)
    (h : r.pointEnlargement p = finite 0) : (r.insert p).volume = r.volume := by
  obtain ⟨v, w, hv, hw, -, -⟩ := hr.volume_union hp.solid
  rw [← insert_eq_union] at hw
  rw [Rectangle.pointEnlargement, hv, hw, Exact.finite_sub, Exact.finite.injEq, sub_eq_zero] at h
  rw [hv, hw, h]

theorem Solid.sum_overlap_insert (hr : r.Solid d) (hp : FinitePoint d p)
    (ho : ∀ q ∈ others, q.Solid d) (h : r.overlapGrowth others p = finite 0) :
    Scalar.sum (others.map (r.insert p).overlap) = Scalar.sum (others.map r.overlap) := by
  obtain ⟨o, g, hbefore, hg, -, hafter⟩ := hr.overlapGrowth hp ho
  rw [hg, Exact.finite.injEq] at h
  rw [hbefore, hafter, h, add_zero]

/-- Taking in a point that is held already adds nothing. -/
theorem Solid.growth_of_contains (hr : r.Solid d) (hp : FinitePoint d p)
    (ho : ∀ q ∈ others, q.Solid d) (h : r.contains p = true) :
    r.pointEnlargement p = finite 0 ∧ r.overlapGrowth others p = finite 0 := by
  have hsame := hr.insert_eq_self hp.length h
  obtain ⟨v, -, hv, -, -, -⟩ := hr.volume_union hp.solid
  obtain ⟨o, g, hbefore, hg, -, hafter⟩ := hr.overlapGrowth hp ho
  constructor
  · rw [Rectangle.pointEnlargement, hsame, hv, Exact.finite_sub, sub_self]
  · rw [hsame, hbefore, Exact.finite.injEq] at hafter
    rw [hg, show g = 0 by linarith]

end Rectangle

end RTree
