import RTree.Proofs.Rectangle.Hull
import RTree.Proofs.Scalar.Exact
import Mathlib.Algebra.BigOperators.Group.List.Basic
import Mathlib.Algebra.Order.Ring.Rat
import Mathlib.Tactic.Linarith

namespace RTree

open Scalar (isNumber)

/-- A range between two finite edges, which may be equal. -/
structure Range.Solid {α : Type} [Scalar α] (r : Range α) : Prop where
  isFinite_lo : Scalar.isFinite r.lo = true
  isFinite_hi : Scalar.isFinite r.hi = true
  lo_le_hi : r.lo ≤ r.hi

structure Rectangle.Solid {α : Type} [Scalar α] (d : Nat) (r : Rectangle α) : Prop where
  dim : r.dim = d
  ranges : ∀ g ∈ r.ranges, g.Solid

theorem Range.solid_single {α : Type} [Scalar α] [OrderedScalar α] {v : α}
    (h : Scalar.isFinite v = true) : (single v).Solid :=
  ⟨h, h, Scalar.le_self_iff.mpr (OrderedScalar.isNumber_of_isFinite h)⟩

theorem Rectangle.Solid.isEmpty {α : Type} [Scalar α] [OrderedScalar α] {d : Nat}
    {r : Rectangle α} (h : r.Solid d) : r.isEmpty = false :=
  isEmpty_of_lo_le_hi fun g hg => (h.ranges g hg).lo_le_hi

theorem Rectangle.FinitePoint.solid {α : Type} [Scalar α] [OrderedScalar α] {d : Nat} {p : List α}
    (h : FinitePoint d p) : (ofPoint p).Solid d where
  dim := (dim_ofPoint p).trans h.length
  ranges := by
    intro g hg
    obtain ⟨v, hv, rfl⟩ := List.mem_map.mp hg
    exact Range.solid_single (h.isFinite v hv)

variable [SquareRoot]

open Exact (finite)

namespace Range

variable {r s : Range Exact}

theorem Solid.eq (h : r.Solid) : ∃ a b : Rat, a ≤ b ∧ r = ⟨finite a, finite b⟩ := by
  obtain ⟨lo, hi⟩ := r
  obtain ⟨hlo, hhi, hle⟩ := h
  obtain ⟨a, rfl⟩ := Exact.isFinite_iff.mp hlo
  obtain ⟨b, rfl⟩ := Exact.isFinite_iff.mp hhi
  exact ⟨a, b, (Exact.finite_le a b).mp hle, rfl⟩

theorem solid_finite {a b : Rat} (h : a ≤ b) : (⟨finite a, finite b⟩ : Range Exact).Solid :=
  ⟨rfl, rfl, (Exact.finite_le a b).mpr h⟩

theorem isEmpty_finite {a b : Rat} (h : a ≤ b) :
    (⟨finite a, finite b⟩ : Range Exact).isEmpty = false := by
  simpa [isEmpty] using h

theorem union_finite (a b a' b' : Rat) :
    (⟨finite a, finite b⟩ : Range Exact).union ⟨finite a', finite b'⟩ =
      ⟨finite (min a a'), finite (max b b')⟩ := by
  rw [← Exact.min_finite, ← Exact.max_finite]
  rfl

theorem width_finite {a b : Rat} (h : a ≤ b) :
    (⟨finite a, finite b⟩ : Range Exact).width = finite (b - a) := by
  unfold width
  rw [isEmpty_finite h]
  exact Exact.finite_sub b a

theorem overlap_finite (a b a' b' : Rat) :
    (⟨finite a, finite b⟩ : Range Exact).overlap ⟨finite a', finite b'⟩ =
      finite (max (min b b' - max a a') 0) := by
  unfold overlap
  simp only [Bool.or_eq_true, decide_eq_true_iff, Exact.finite_lt, Exact.min_finite,
    Exact.max_finite, Exact.finite_sub]
  split
  · rename_i hapart
    have hgap : min b b' - max a a' ≤ 0 := by
      have h1 := min_le_left b b'
      have h2 := min_le_right b b'
      have h3 := le_max_left a a'
      have h4 := le_max_right a a'
      rcases hapart with h | h <;> linarith
    exact congrArg finite (max_eq_right hgap).symm
  · exact Exact.max_finite _ 0

theorem Solid.union (hr : r.Solid) (hs : s.Solid) : (r.union s).Solid := by
  obtain ⟨a, b, hab, rfl⟩ := hr.eq
  obtain ⟨a', b', -, rfl⟩ := hs.eq
  rw [union_finite]
  exact solid_finite ((min_le_left a a').trans (hab.trans (le_max_left b b')))

/-- The empty range adds nothing. -/
theorem empty_union (hr : r.Solid) : empty.union r = r := by
  obtain ⟨a, b, -, rfl⟩ := hr.eq
  rfl

/-- Two solid ranges have widths, and what they have in common is at most as wide as each. -/
theorem Solid.overlap (hr : r.Solid) (hs : s.Solid) :
    ∃ v w o : Rat, r.width = finite v ∧ s.width = finite w ∧ r.overlap s = finite o ∧
      0 ≤ o ∧ o ≤ v ∧ o ≤ w := by
  obtain ⟨a, b, hab, rfl⟩ := hr.eq
  obtain ⟨a', b', hab', rfl⟩ := hs.eq
  refine ⟨b - a, b' - a', max (min b b' - max a a') 0, width_finite hab, width_finite hab',
    overlap_finite a b a' b', le_max_right _ _, ?_, ?_⟩
  · have h1 := min_le_left b b'
    have h2 := le_max_left a a'
    exact max_le (by linarith) (by linarith)
  · have h1 := min_le_right b b'
    have h2 := le_max_right a a'
    exact max_le (by linarith) (by linarith)

end Range

omit [SquareRoot] in
/-- A product of factors that are no smaller is no smaller. -/
theorem prod_le_prod_of_forall₂ {os vs : List Rat}
    (h : List.Forall₂ (fun o v => 0 ≤ o ∧ o ≤ v) os vs) : 0 ≤ os.prod ∧ os.prod ≤ vs.prod := by
  induction h with
  | nil => exact ⟨zero_le_one, le_refl _⟩
  | cons h _ ih =>
    rw [List.prod_cons, List.prod_cons]
    exact ⟨mul_nonneg h.1 ih.1, mul_le_mul h.2 ih.2 ih.1 (h.1.trans h.2)⟩

namespace Rectangle

variable {d : Nat} {r s : Rectangle Exact} {rects : List (Rectangle Exact)}

theorem Solid.volume_eq (h : r.Solid d) :
    r.volume = Scalar.product (r.ranges.map Range.width) := by
  rw [volume, h.isEmpty, if_neg Bool.false_ne_true]

theorem Solid.overlap_eq (hr : r.Solid d) (hs : s.Solid d) :
    r.overlap s = Scalar.product (List.zipWith Range.overlap r.ranges s.ranges) := by
  rw [Rectangle.overlap, hr.isEmpty, hs.isEmpty, Bool.or_self, if_neg Bool.false_ne_true]

theorem Solid.union (hr : r.Solid d) (hs : s.Solid d) : (r.union s).Solid d where
  dim := by rw [dim_union, hr.dim, hs.dim, Nat.min_self]
  ranges := by
    intro g hg
    have hg' : g ∈ List.zipWith Range.union r.ranges s.ranges := hg
    obtain ⟨i, hi, rfl⟩ := List.getElem_of_mem hg'
    rw [List.getElem_zipWith]
    exact (hr.ranges _ (List.getElem_mem _)).union (hs.ranges _ (List.getElem_mem _))

theorem empty_union (hr : r.Solid d) : (empty d).union r = r := by
  obtain ⟨ranges⟩ := r
  obtain ⟨rfl, hranges⟩ := hr
  show (⟨List.zipWith Range.union (List.replicate ranges.length Range.empty) ranges⟩ :
    Rectangle Exact) = ⟨ranges⟩
  congr 1
  apply List.ext_getElem
  · simp
  · intro i h1 h2
    rw [List.getElem_zipWith, List.getElem_replicate]
    exact Range.empty_union (hranges _ (List.getElem_mem h2))

theorem Solid.foldl_union (hr : r.Solid d) (h : ∀ s ∈ rects, s.Solid d) :
    (rects.foldl Rectangle.union r).Solid d := by
  induction rects generalizing r with
  | nil => exact hr
  | cons s rects ih =>
    exact ih (hr.union (h s List.mem_cons_self)) fun s hs => h s (List.mem_cons_of_mem _ hs)

/-- Some solid rectangles have a solid one around them. -/
theorem solid_foldl_union (h : ∀ s ∈ rects, s.Solid d) (hne : rects ≠ []) :
    (rects.foldl Rectangle.union (empty d)).Solid d := by
  obtain ⟨r, rest, rfl⟩ := List.exists_cons_of_ne_nil hne
  have hr := h r List.mem_cons_self
  rw [List.foldl_cons, empty_union hr]
  exact hr.foldl_union fun s hs => h s (List.mem_cons_of_mem _ hs)

theorem eq_of_beq (h : (r == s) = true) : r = s := by
  obtain ⟨rs⟩ := r
  obtain ⟨ss⟩ := s
  have hall : List.Forall₂ _ rs ss := forall₂_of_beq h
  have heq : List.Forall₂ Eq rs ss := hall.imp fun g g' hg => by
    obtain ⟨hlo, hhi⟩ := Range.beq_iff.mp hg
    obtain ⟨lo, hi⟩ := g
    obtain ⟨lo', hi'⟩ := g'
    rw [show lo = lo' from Exact.eq_of_beq hlo, show hi = hi' from Exact.eq_of_beq hhi]
  rw [List.forall₂_eq_eq_eq] at heq
  exact congrArg Rectangle.mk heq

theorem Solid.proper (h : r.Solid d) : r.Proper d := by
  have haxis : ∀ k < d, (r.axis k).Solid := by
    intro k hk
    have hk' : k < r.ranges.length := lt_of_lt_of_eq hk h.dim.symm
    rw [axis_eq_getElem hk']
    exact h.ranges _ (List.getElem_mem hk')
  exact
    { dim := h.dim
      isNumber_lo := fun k hk => OrderedScalar.isNumber_of_isFinite (haxis k hk).isFinite_lo
      isNumber_hi := fun k hk => OrderedScalar.isNumber_of_isFinite (haxis k hk).isFinite_hi }

/-- The hull of some solid rectangles is solid. -/
theorem IsHull.solid (h : IsHull d rects r) (hs : ∀ s ∈ rects, s.Solid d) (hne : rects ≠ []) :
    r.Solid d := by
  have hfold := isHull_foldl (fun s h => (hs s h).proper) (isHull_nil d)
  rw [List.nil_append] at hfold
  rw [eq_of_beq (h.beq hfold)]
  exact solid_foldl_union hs hne

/-- Lists of solid ranges have widths; the widths that they have in common are no larger. -/
theorem exists_widths {rs ss : List (Range Exact)} (hl : rs.length = ss.length)
    (hr : ∀ g ∈ rs, g.Solid) (hs : ∀ g ∈ ss, g.Solid) :
    ∃ vs ws os : List Rat, rs.map Range.width = vs.map finite ∧
      ss.map Range.width = ws.map finite ∧ List.zipWith Range.overlap rs ss = os.map finite ∧
      List.Forall₂ (fun o v => 0 ≤ o ∧ o ≤ v) os vs ∧
      List.Forall₂ (fun o w => 0 ≤ o ∧ o ≤ w) os ws := by
  induction rs generalizing ss with
  | nil =>
    obtain rfl : ss = [] := List.eq_nil_of_length_eq_zero hl.symm
    exact ⟨[], [], [], rfl, rfl, rfl, .nil, .nil⟩
  | cons r rs ih =>
    obtain ⟨s, ss, rfl⟩ := List.exists_cons_of_length_eq_add_one hl.symm
    obtain ⟨v, w, o, hv, hw, ho, hpos, hov, how⟩ :=
      (hr r List.mem_cons_self).overlap (hs s List.mem_cons_self)
    obtain ⟨vs, ws, os, hvs, hws, hos, hall, hall'⟩ := ih (Nat.succ.inj hl)
      (fun g hg => hr g (List.mem_cons_of_mem _ hg)) fun g hg => hs g (List.mem_cons_of_mem _ hg)
    refine ⟨v :: vs, w :: ws, o :: os, ?_, ?_, ?_, .cons ⟨hpos, hov⟩ hall, .cons ⟨hpos, how⟩ hall'⟩
    · rw [List.map_cons, hv, hvs, List.map_cons]
    · rw [List.map_cons, hw, hws, List.map_cons]
    · rw [List.zipWith_cons_cons, ho, hos, List.map_cons]

/-- Two solid rectangles have volumes, and what they have in common is at most as large as each. -/
theorem Solid.overlap (hr : r.Solid d) (hs : s.Solid d) :
    ∃ v w o : Rat, r.volume = finite v ∧ s.volume = finite w ∧ r.overlap s = finite o ∧
      0 ≤ o ∧ o ≤ v ∧ o ≤ w := by
  obtain ⟨vs, ws, os, hvs, hws, hos, hall, hall'⟩ :=
    exists_widths (hr.dim.trans hs.dim.symm) hr.ranges hs.ranges
  obtain ⟨hpos, hov⟩ := prod_le_prod_of_forall₂ hall
  refine ⟨vs.prod, ws.prod, os.prod, ?_, ?_, ?_, hpos, hov, (prod_le_prod_of_forall₂ hall').2⟩
  · rw [hr.volume_eq, hvs, Exact.product_finite]
  · rw [hs.volume_eq, hws, Exact.product_finite]
  · rw [hr.overlap_eq hs, hos, Exact.product_finite]

end Rectangle

end RTree
