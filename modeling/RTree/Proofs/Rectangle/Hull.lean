import RTree.Rectangle
import RTree.Proofs.Scalar.Ordered
import Mathlib.Data.List.Forall2

/-!
A rectangle is known, up to values that count as equal, by the half-spaces that it lies in. The hull
of some rectangles is the one that lies in exactly those half-spaces that all of them lie in.
-/

namespace RTree

open OrderedScalar
open Scalar hiding min max

variable {α : Type}

/-- All points on one side of a value on one axis, the value included. -/
inductive HalfSpace (α : Type) where
  | above (axis : Nat) (edge : α)
  | below (axis : Nat) (edge : α)

variable [Scalar α]

def HalfSpace.Valid (d : Nat) : HalfSpace α → Prop
  | above k x | below k x => k < d ∧ isNumber x = true

theorem Range.contains_iff {r : Range α} {v : α} :
    r.contains v = true ↔ r.lo ≤ v ∧ v ≤ r.hi := by
  unfold Range.contains
  rw [Bool.and_eq_true, decide_eq_true_iff, decide_eq_true_iff]

theorem Range.meets_iff {r s : Range α} :
    r.meets s = true ↔ r.lo ≤ s.hi ∧ s.lo ≤ r.hi := by
  unfold Range.meets
  rw [Bool.and_eq_true, decide_eq_true_iff, decide_eq_true_iff]

theorem Range.beq_iff {r s : Range α} :
    (r == s) = true ↔ (r.lo == s.lo) = true ∧ (r.hi == s.hi) = true := by
  show (r.lo == s.lo && r.hi == s.hi) = true ↔ _
  rw [Bool.and_eq_true]

theorem ranges_beq {rs ss : List (Range α)} (hl : rs.length = ss.length)
    (h : ∀ k (hr : k < rs.length) (hs : k < ss.length), (rs[k] == ss[k]) = true) :
    (rs == ss) = true := by
  induction rs generalizing ss with
  | nil =>
    obtain rfl : ss = [] := List.eq_nil_of_length_eq_zero hl.symm
    rfl
  | cons r rs ih =>
    obtain ⟨s, ss, rfl⟩ := List.exists_cons_of_length_eq_add_one hl.symm
    rw [List.cons_beq_cons, Bool.and_eq_true]
    refine ⟨h 0 (by simp) (by simp), ih (by simpa using hl) fun k hr hs => ?_⟩
    exact h (k + 1) (by simpa using hr) (by simpa using hs)

theorem forall₂_of_beq {rs ss : List (Range α)} (h : (rs == ss) = true) :
    List.Forall₂ (fun r s => (r == s) = true) rs ss := by
  induction rs generalizing ss with
  | nil =>
    cases ss with
    | nil => exact .nil
    | cons s ss => cases h
  | cons r rs ih =>
    cases ss with
    | nil => cases h
    | cons s ss =>
      rw [List.cons_beq_cons, Bool.and_eq_true] at h
      exact .cons h.1 (ih h.2)

namespace Rectangle

def axis (r : Rectangle α) (k : Nat) : Range α := r.ranges.getD k Range.empty

def Within (r : Rectangle α) : HalfSpace α → Prop
  | .above k x => x ≤ (r.axis k).lo
  | .below k x => (r.axis k).hi ≤ x

/-- A rectangle of dimension `d` whose edges are all numbers. -/
structure Proper (d : Nat) (r : Rectangle α) : Prop where
  dim : r.dim = d
  isNumber_lo : ∀ k < d, isNumber (r.axis k).lo = true
  isNumber_hi : ∀ k < d, isNumber (r.axis k).hi = true

/-- A point of dimension `d` whose coordinates are all numbers, infinite ones included. -/
structure NumberPoint (d : Nat) (p : List α) : Prop where
  length : p.length = d
  isNumber : ∀ v ∈ p, isNumber v = true

structure FinitePoint (d : Nat) (p : List α) : Prop where
  length : p.length = d
  isFinite : ∀ v ∈ p, Scalar.isFinite v = true

/-- The least rectangle around some rectangles. -/
structure IsHull (d : Nat) (rects : List (Rectangle α)) (r : Rectangle α) : Prop where
  proper : r.Proper d
  within_iff : ∀ h : HalfSpace α, h.Valid d → (r.Within h ↔ ∀ s ∈ rects, s.Within h)

theorem axis_eq_getElem {r : Rectangle α} {k : Nat} (hk : k < r.ranges.length) :
    r.axis k = r.ranges[k] := by simp [axis, hk]

theorem axis_empty (d k : Nat) : (empty d : Rectangle α).axis k = Range.empty := by
  unfold axis empty
  rw [List.getD_eq_getElem?_getD, List.getElem?_replicate]
  split <;> rfl

theorem axis_union {r s : Rectangle α} {k : Nat} (hr : k < r.dim) (hs : k < s.dim) :
    (r.union s).axis k = (r.axis k).union (s.axis k) := by
  unfold dim at hr hs
  simp only [axis, union, List.getD_eq_getElem?_getD, List.getElem?_zipWith,
    List.getElem?_eq_getElem hr, List.getElem?_eq_getElem hs, Option.getD_some]

/-- A point that has been taken in is held already. -/
theorem insert_insert (r : Rectangle α) (p : List α) : (r.insert p).insert p = r.insert p := by
  have hrange : ∀ (g : Range α) (v : α), (g.insert v).insert v = g.insert v := fun g v => by
    simp only [Range.insert, min_min_right, max_max_right]
  have hranges : ∀ rs : List (Range α), List.zipWith Range.insert
      (List.zipWith Range.insert rs p) p = List.zipWith Range.insert rs p := by
    intro rs
    induction rs generalizing p with
    | nil => rfl
    | cons g rs ih =>
      cases p with
      | nil => rfl
      | cons v p => rw [List.zipWith_cons_cons, List.zipWith_cons_cons, hrange, ih]
  exact congrArg Rectangle.mk (hranges r.ranges)

theorem axis_ofPoint {p : List α} {k : Nat} (h : k < p.length) :
    (ofPoint p).axis k = Range.single p[k] := by
  simp [axis, ofPoint, h]

theorem forall_mem_zipWith {f : Range α → Range α → Bool} {r s : Rectangle α}
    (hd : r.dim = s.dim) :
    (List.zipWith f r.ranges s.ranges).all id = true ↔
      ∀ k < r.dim, f (r.axis k) (s.axis k) = true := by
  unfold dim at hd ⊢
  rw [List.all_eq_true, List.forall_mem_iff_forall_getElem]
  simp only [List.length_zipWith, hd, Nat.min_self, List.getElem_zipWith, id]
  constructor
  · intro h k hk
    have := h k hk
    simpa [axis, hk, hd] using this
  · intro h k hk
    have := h k hk
    simpa [axis, hk, hd] using this

/-- A point lies in a rectangle when it lies between the edges on each axis. -/
theorem contains_iff {r : Rectangle α} {p : List α} (hd : r.dim = p.length) :
    r.contains p = true ↔
      ∀ k < r.dim, (r.axis k).lo ≤ ((ofPoint p).axis k).lo ∧
        ((ofPoint p).axis k).hi ≤ (r.axis k).hi := by
  have hz : List.zipWith Range.contains r.ranges p =
      List.zipWith (fun a b => Range.contains a b.lo) r.ranges (ofPoint p).ranges := by
    simp [ofPoint, List.zipWith_map_right, Range.single]
  unfold contains
  rw [hz, forall_mem_zipWith (by simpa using hd)]
  refine forall₂_congr fun k hk => ?_
  rw [axis_ofPoint (hd ▸ hk)]
  exact Range.contains_iff

section Order

variable [OrderedScalar α] {d : Nat}

theorem proper_empty (d : Nat) : (empty d : Rectangle α).Proper d where
  dim := dim_empty d
  isNumber_lo := fun k _ => by rw [axis_empty]; exact isNumber_top
  isNumber_hi := fun k _ => by rw [axis_empty]; exact isNumber_bottom

omit [OrderedScalar α] in
theorem NumberPoint.proper {p : List α} (h : NumberPoint d p) : (ofPoint p).Proper d where
  dim := by simp [h.length]
  isNumber_lo := fun k hk => by
    rw [axis_ofPoint (h.length ▸ hk)]
    exact h.isNumber _ (List.getElem_mem _)
  isNumber_hi := fun k hk => by
    rw [axis_ofPoint (h.length ▸ hk)]
    exact h.isNumber _ (List.getElem_mem _)

theorem FinitePoint.numberPoint {p : List α} (h : FinitePoint d p) : NumberPoint d p :=
  ⟨h.length, fun v hv => isNumber_of_isFinite (h.isFinite v hv)⟩

theorem FinitePoint.proper {p : List α} (h : FinitePoint d p) : (ofPoint p).Proper d :=
  h.numberPoint.proper

omit [OrderedScalar α] in
theorem Proper.union {r s : Rectangle α} (hr : r.Proper d) (hs : s.Proper d) :
    (r.union s).Proper d where
  dim := by simp [hr.dim, hs.dim]
  isNumber_lo := fun k hk => by
    rw [axis_union (hr.dim ▸ hk) (hs.dim ▸ hk)]
    exact isNumber_min (hr.isNumber_lo k hk) (hs.isNumber_lo k hk)
  isNumber_hi := fun k hk => by
    rw [axis_union (hr.dim ▸ hk) (hs.dim ▸ hk)]
    exact isNumber_max (hr.isNumber_hi k hk) (hs.isNumber_hi k hk)

theorem within_empty {h : HalfSpace α} (hh : h.Valid d) : (empty d : Rectangle α).Within h := by
  cases h with
  | above k x =>
    rw [Within, axis_empty]
    exact le_top hh.2
  | below k x =>
    rw [Within, axis_empty]
    exact bottom_le hh.2

/-- A union lies in the half-spaces that both rectangles lie in. -/
theorem within_union {r s : Rectangle α} (hr : r.Proper d) (hs : s.Proper d) {h : HalfSpace α}
    (hh : h.Valid d) : (r.union s).Within h ↔ r.Within h ∧ s.Within h := by
  cases h with
  | above k x =>
    simp only [Within, axis_union (hr.dim ▸ hh.1) (hs.dim ▸ hh.1)]
    exact le_min_iff (hr.isNumber_lo k hh.1) (hs.isNumber_lo k hh.1)
  | below k x =>
    simp only [Within, axis_union (hr.dim ▸ hh.1) (hs.dim ▸ hh.1)]
    exact max_le_iff (hr.isNumber_hi k hh.1) (hs.isNumber_hi k hh.1)

/-- What a rectangle contains lies in all half-spaces that the rectangle lies in. -/
theorem contains_iff_within {r : Rectangle α} {p : List α} (hr : r.Proper d)
    (hp : FinitePoint d p) :
    r.contains p = true ↔ ∀ h : HalfSpace α, h.Valid d → r.Within h → (ofPoint p).Within h := by
  rw [contains_iff (hr.dim.trans hp.length.symm), hr.dim]
  constructor
  · intro hc h hh hw
    cases h with
    | above k x => exact le_trans hw (hc k hh.1).1
    | below k x => exact le_trans (hc k hh.1).2 hw
  · intro hall k hk
    have hlo := hr.isNumber_lo k hk
    have hhi := hr.isNumber_hi k hk
    exact ⟨hall (.above k (r.axis k).lo) ⟨hk, hlo⟩ (le_self_iff.mpr hlo),
      hall (.below k (r.axis k).hi) ⟨hk, hhi⟩ (le_self_iff.mpr hhi)⟩

/-- Rectangles that lie in the same half-spaces count as equal. -/
theorem beq_of_within {r s : Rectangle α} (hr : r.Proper d) (hs : s.Proper d)
    (hw : ∀ h : HalfSpace α, h.Valid d → (r.Within h ↔ s.Within h)) : (r == s) = true := by
  have haxis : ∀ k < d, (r.axis k == s.axis k) = true := by
    intro k hk
    have hlo := hw (.above k (r.axis k).lo) ⟨hk, hr.isNumber_lo k hk⟩
    have hlo' := hw (.above k (s.axis k).lo) ⟨hk, hs.isNumber_lo k hk⟩
    have hhi := hw (.below k (r.axis k).hi) ⟨hk, hr.isNumber_hi k hk⟩
    have hhi' := hw (.below k (s.axis k).hi) ⟨hk, hs.isNumber_hi k hk⟩
    simp only [Within, le_self_iff.mpr (hr.isNumber_lo k hk), le_self_iff.mpr (hs.isNumber_lo k hk),
      le_self_iff.mpr (hr.isNumber_hi k hk), le_self_iff.mpr (hs.isNumber_hi k hk), true_iff,
      iff_true] at hlo hlo' hhi hhi'
    change ((r.axis k).lo == (s.axis k).lo && (r.axis k).hi == (s.axis k).hi) = true
    rw [Bool.and_eq_true, beq_iff, beq_iff]
    exact ⟨⟨hlo, hlo'⟩, ⟨hhi', hhi⟩⟩
  have hlen : r.ranges.length = s.ranges.length := hr.dim.trans hs.dim.symm
  change (r.ranges == s.ranges) = true
  refine ranges_beq hlen fun k hk hk' => ?_
  have := haxis k (hr.dim ▸ hk)
  simpa [axis, hk, hk'] using this

theorem isHull_nil (d : Nat) : IsHull d [] (empty d : Rectangle α) :=
  ⟨proper_empty d, fun _ hh => by simp [within_empty hh]⟩

omit [OrderedScalar α] in
theorem Proper.isHull_singleton {r : Rectangle α} (hr : r.Proper d) : IsHull d [r] r :=
  ⟨hr, fun _ _ => by simp⟩

/-- The union of two hulls is the hull of all their rectangles. -/
theorem IsHull.union {rs ss : List (Rectangle α)} {r s : Rectangle α} (hr : IsHull d rs r)
    (hs : IsHull d ss s) : IsHull d (rs ++ ss) (r.union s) where
  proper := hr.proper.union hs.proper
  within_iff := fun h hh => by
    rw [within_union hr.proper hs.proper hh, hr.within_iff h hh, hs.within_iff h hh]
    simp only [List.mem_append, or_imp, forall_and]

omit [OrderedScalar α] in
/-- A hull stays one when its rectangles are exchanged for others that lie in the same
half-spaces. -/
theorem IsHull.congr {rs ss : List (Rectangle α)} {r : Rectangle α} (hr : IsHull d rs r)
    (h : ∀ h : HalfSpace α, h.Valid d → ((∀ s ∈ rs, s.Within h) ↔ ∀ s ∈ ss, s.Within h)) :
    IsHull d ss r :=
  ⟨hr.proper, fun g hg => (hr.within_iff g hg).trans (h g hg)⟩

theorem isHull_foldl {ss : List (Rectangle α)} (hss : ∀ s ∈ ss, Proper d s)
    {rs : List (Rectangle α)} {r : Rectangle α} (hr : IsHull d rs r) :
    IsHull d (rs ++ ss) (ss.foldl Rectangle.union r) := by
  induction ss generalizing rs r with
  | nil => simpa using hr
  | cons s ss ih =>
    have hs := hss s (by simp)
    have h := ih (fun s' h' => hss s' (by simp [h'])) (hr.union hs.isHull_singleton)
    simpa using h

/-- Two hulls of the same rectangles count as equal. -/
theorem IsHull.beq {rs : List (Rectangle α)} {r s : Rectangle α} (hr : IsHull d rs r)
    (hs : IsHull d rs s) : (r == s) = true :=
  beq_of_within hr.proper hs.proper fun h hh =>
    (hr.within_iff h hh).trans (hs.within_iff h hh).symm

omit [OrderedScalar α] in
theorem axis_beq {r s : Rectangle α} (h : (r == s) = true) {k : Nat} (hk : k < r.dim) :
    (r.axis k == s.axis k) = true := by
  have hall : List.Forall₂ _ r.ranges s.ranges := forall₂_of_beq h
  have hs : k < s.ranges.length := hall.length_eq ▸ hk
  simpa [axis, hs, show k < r.ranges.length from hk] using hall.get hk hs

/-- What counts as equal to a hull is one. -/
theorem IsHull.of_beq {rs : List (Rectangle α)} {r s : Rectangle α} (hr : IsHull d rs r)
    (h : (r == s) = true) : IsHull d rs s := by
  have hd := hr.proper.dim
  have haxis : ∀ k < d, ((r.axis k).lo ≤ (s.axis k).lo ∧ (s.axis k).lo ≤ (r.axis k).lo) ∧
      (r.axis k).hi ≤ (s.axis k).hi ∧ (s.axis k).hi ≤ (r.axis k).hi := by
    intro k hk
    obtain ⟨hlo, hhi⟩ := Range.beq_iff.mp (axis_beq h (hd ▸ hk))
    exact ⟨beq_iff.mp hlo, beq_iff.mp hhi⟩
  constructor
  · refine ⟨?_, fun k hk => (isNumber_of_le (haxis k hk).1.1).2,
      fun k hk => (isNumber_of_le (haxis k hk).2.1).2⟩
    exact (forall₂_of_beq h).length_eq.symm.trans hd
  · intro g hg
    rw [← hr.within_iff g hg]
    cases g with
    | above k x =>
      obtain ⟨⟨h1, h2⟩, -⟩ := haxis k hg.1
      exact ⟨fun hx => le_trans hx h2, fun hx => le_trans hx h1⟩
    | below k x =>
      obtain ⟨-, h1, h2⟩ := haxis k hg.1
      exact ⟨fun hx => le_trans h1 hx, fun hx => le_trans h2 hx⟩

/-- A hull contains the points of its rectangles. -/
theorem IsHull.contains {rs : List (Rectangle α)} {r s : Rectangle α} (hr : IsHull d rs r)
    (hs : s ∈ rs) (hsp : s.Proper d) {p : List α} (hp : FinitePoint d p)
    (hc : s.contains p = true) : r.contains p = true := by
  rw [contains_iff_within hr.proper hp]
  rw [contains_iff_within hsp hp] at hc
  exact fun h hh hw => hc h hh ((hr.within_iff h hh).mp hw s hs)

theorem FinitePoint.contains_self {p : List α} (hp : FinitePoint d p) :
    (ofPoint p).contains p = true :=
  (contains_iff_within hp.proper hp).mpr fun _ _ h => h

/-- A rectangle whose edges are in order is not empty. -/
theorem isEmpty_of_lo_le_hi {r : Rectangle α} (h : ∀ g ∈ r.ranges, g.lo ≤ g.hi) :
    r.isEmpty = false := by
  unfold isEmpty
  rw [List.any_eq_false]
  intro g hg
  simp only [Range.isEmpty, decide_eq_true_iff, lt_iff]
  exact fun hlt => hlt.2.2 (h g hg)

theorem isEmpty_eq_false {r : Rectangle α} {p : List α} (hd : r.dim = p.length)
    (hc : r.contains p = true) : r.isEmpty = false := by
  rw [contains_iff hd] at hc
  refine isEmpty_of_lo_le_hi fun g hg => ?_
  obtain ⟨k, hk, rfl⟩ := List.getElem_of_mem hg
  have hle := hc k hk
  rw [axis_ofPoint (hd ▸ hk : k < p.length), axis_eq_getElem hk] at hle
  exact le_trans hle.1 hle.2

/-- Rectangles with a common point intersect. -/
theorem intersects_of_contains {r q : Rectangle α} {p : List α} (hr : r.dim = p.length)
    (hq : q.dim = p.length) (hrp : r.contains p = true) (hqp : q.contains p = true) :
    r.intersects q = true := by
  unfold intersects
  rw [isEmpty_eq_false hr hrp, isEmpty_eq_false hq hqp]
  simp only [Bool.not_false, Bool.true_and]
  rw [forall_mem_zipWith (hr.trans hq.symm)]
  rw [contains_iff hr] at hrp
  rw [contains_iff hq] at hqp
  intro k hk
  have h1 := hrp k hk
  have h2 := hqp k (by omega)
  rw [axis_ofPoint (hr ▸ hk : k < p.length)] at h1 h2
  exact Range.meets_iff.mpr ⟨le_trans h1.1 h2.2, le_trans h2.1 h1.2⟩

end Order

end Rectangle

end RTree
