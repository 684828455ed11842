import RTree.Proofs.Scalar.Rounding
import RTree.Proofs.Split.Scores

namespace RTree

open OrderedScalar
open Scalar (isNumber)

variable {α : Type} [Scalar α]

def Edge.key (e : Edge) (rects : List (Rectangle α)) (axis i : Nat) : α :=
  e.of (rects.getD i (.empty 0)) axis

/-- An entry goes before another when its edge is less, or equal and its place is before. -/
def Precedes (rects : List (Rectangle α)) (axis : Nat) (edge : Edge) (i j : Nat) : Prop :=
  edge.key rects axis i < edge.key rects axis j ∨
    (edge.key rects axis i == edge.key rects axis j) = true ∧ i < j

/-- What a cut between the halves costs, up to values that count as equal. -/
structure Cut.Weighs (c : Cut α) (first second : Rectangle α) : Prop where
  margin : Scalar.Alike c.margin (first.margin + second.margin)
  area : Scalar.Alike c.area (first.volume + second.volume)
  overlap : Scalar.Alike c.overlap (first.overlap second)

def boundOf (rects : List (Rectangle α)) (d : Nat) (places : List Nat) : Rectangle α :=
  (pick rects places).foldl Rectangle.union (.empty d)

/-- The score as its definition has it, without running bounds. -/
structure SortScore.Recounted (s : SortScore α) (rects : List (Rectangle α)) (d axis : Nat)
    (edge : Edge) (minimum : Nat) : Prop where
  along : s.axis = axis
  sortedBy : s.edge = edge
  perm : s.order.Perm (List.range rects.length)
  sorted : s.order.Pairwise (Precedes rects axis edge)
  only : ∀ order : List Nat, order.Perm (List.range rects.length) →
    order.Pairwise (Precedes rects axis edge) → order = s.order
  increasing : (s.cuts.map Cut.position).Pairwise (· < ·)
  mem_positions : ∀ c, c ∈ s.cuts.map Cut.position ↔
    max 1 (min minimum (rects.length / 2)) ≤ c ∧
      c ≤ rects.length - max 1 (min minimum (rects.length / 2))
  uncut : s.cuts = [] ↔ rects.length < 2
  between : ∀ c ∈ s.cuts, c = .between c.position (boundOf rects d (s.order.take c.position))
    (boundOf rects d (s.order.drop c.position).reverse)
  weighs : ∀ c ∈ s.cuts, ∀ first second : List Nat, first.Perm (s.order.take c.position) →
    second.Perm (s.order.drop c.position) →
      c.Weighs (boundOf rects d first) (boundOf rects d second)
  marginSum : s.marginSum = (s.cuts.map Cut.margin).foldl (· + ·) Scalar.zero

section Order

variable [OrderedScalar α] {rects : List (Rectangle α)} {d axis : Nat} {edge : Edge}

theorem Precedes.trans {i j k : Nat} (h : Precedes rects axis edge i j)
    (h' : Precedes rects axis edge j k) : Precedes rects axis edge i k := by
  unfold Precedes at h h' ⊢
  rcases h with h | ⟨h, hlt⟩
  · rcases h' with h' | ⟨h', -⟩
    · exact .inl (Scalar.lt_of_lt_of_le h (Scalar.le_of_lt h'))
    · exact .inl (Scalar.lt_of_lt_of_le h (beq_iff.mp h').1)
  · rcases h' with h' | ⟨h', hlt'⟩
    · exact .inl (Scalar.lt_of_le_of_lt (beq_iff.mp h).1 h')
    · obtain ⟨h1, h2⟩ := beq_iff.mp h
      obtain ⟨h3, h4⟩ := beq_iff.mp h'
      exact .inr ⟨beq_iff.mpr ⟨le_trans h1 h3, le_trans h4 h2⟩, Nat.lt_trans hlt hlt'⟩

theorem Precedes.asymm {i j : Nat} (h : Precedes rects axis edge i j) :
    ¬ Precedes rects axis edge j i := by
  intro h'
  rcases h.trans h' with hlt | ⟨-, hlt⟩
  · obtain ⟨hn, -, hle⟩ := lt_iff.mp hlt
    exact hle (Scalar.le_self_iff.mpr hn)
  · exact Nat.lt_irrefl _ hlt

omit [OrderedScalar α] in
theorem key_of_getElem? {r : Rectangle α} {i : Nat} (h : rects[i]? = some r) :
    edge.key rects axis i = edge.of r axis := by
  unfold Edge.key
  rw [List.getD_eq_getElem?_getD, h]
  rfl

omit [OrderedScalar α] in
theorem isNumber_of_proper {r : Rectangle α} (h : r.Proper d) (haxis : axis < d) :
    isNumber (edge.of r axis) = true := by
  cases edge with
  | low => exact h.isNumber_lo axis haxis
  | high => exact h.isNumber_hi axis haxis

/-- Comparing two entries by their edges tells which goes before the other. -/
theorem precedes_of_lt {r s : Rectangle α} {i j : Nat} (hr : rects[i]? = some r)
    (hs : rects[j]? = some s) (hnr : isNumber (edge.of r axis) = true)
    (hns : isNumber (edge.of s axis) = true) (hij : i < j) :
    if edge.of s axis < edge.of r axis then Precedes rects axis edge j i
    else Precedes rects axis edge i j := by
  unfold Precedes
  rw [key_of_getElem? hr, key_of_getElem? hs]
  split
  · rename_i hlt
    exact .inl hlt
  · rename_i hlt
    have hle : edge.of r axis ≤ edge.of s axis := Scalar.le_of_not_lt hnr hns hlt
    by_cases hge : edge.of s axis ≤ edge.of r axis
    · exact .inr ⟨beq_iff.mpr ⟨hle, hge⟩, hij⟩
    · exact .inl (lt_iff.mpr ⟨hnr, hns, hge⟩)

/-- The order of a sort is stable. -/
theorem order_pairwise (hproper : ∀ r ∈ rects, r.Proper d) (haxis : axis < d) (minimum : Nat) :
    (scoreSort rects axis edge minimum).order.Pairwise (Precedes rects axis edge) := by
  rw [order_scoreSort, List.pairwise_map]
  apply stableSort_pairwise_of fun a b c hab hbc => hab.trans hbc
  apply (pairwise_zipIdx rects).imp_of_mem
  rintro ⟨r, i⟩ ⟨s, j⟩ hr hs hij
  rw [List.mem_zipIdx_iff_getElem?] at hr hs
  simpa using precedes_of_lt hr hs
    (isNumber_of_proper (hproper r (List.mem_of_getElem? hr)) haxis)
    (isNumber_of_proper (hproper s (List.mem_of_getElem? hs)) haxis) hij

omit [OrderedScalar α] in
theorem order_perm (rects : List (Rectangle α)) (axis : Nat) (edge : Edge) (minimum : Nat) :
    (scoreSort rects axis edge minimum).order.Perm (List.range rects.length) := by
  rw [order_scoreSort, List.range_eq_range', ← List.zipIdx_map_snd 0 rects]
  exact (stableSort_perm _ _).map Prod.snd

end Order

section Weights

variable [SteadyScalar α] {rects : List (Rectangle α)} {d axis minimum : Nat} {edge : Edge}

theorem boundOf_alike (hproper : ∀ r ∈ rects, r.Proper d) {places places' : List Nat}
    (h : places.Perm places') :
    (boundOf rects d places).Alike (boundOf rects d places') :=
  foldl_union_alike (fun r hr => hproper r (mem_of_mem_pick hr)) (h.filterMap _)

omit [SteadyScalar α] in
/-- Each half is bounded from its end of the sorted list. -/
theorem eq_between_boundOf (hproper : ∀ r ∈ rects, r.Proper d) {c : Cut α}
    (hc : c ∈ (scoreSort rects axis edge minimum).cuts) :
    c = .between c.position
      (boundOf rects d ((scoreSort rects axis edge minimum).order.take c.position))
      (boundOf rects d ((scoreSort rects axis edge minimum).order.drop c.position).reverse) := by
  obtain ⟨-, -, hbetween⟩ := eq_between_of_mem_cuts hproper hc
  unfold boundOf
  unfold pick at hbetween ⊢
  rw [List.filterMap_reverse]
  exact hbetween

/-- A cut weighs what its halves do, in whatever order they are bounded. -/
theorem weighs_of_mem_cuts (hproper : ∀ r ∈ rects, r.Proper d) {c : Cut α}
    (hc : c ∈ (scoreSort rects axis edge minimum).cuts) {first second : List Nat}
    (hfirst : first.Perm ((scoreSort rects axis edge minimum).order.take c.position))
    (hsecond : second.Perm ((scoreSort rects axis edge minimum).order.drop c.position)) :
    c.Weighs (boundOf rects d first) (boundOf rects d second) := by
  have hbetween := eq_between_boundOf hproper hc
  have hone := boundOf_alike hproper hfirst.symm
  have hother := boundOf_alike hproper ((List.reverse_perm _).trans hsecond.symm)
  constructor
  · rw [congrArg Cut.margin hbetween]
    exact SteadyScalar.add_alike hone.margin hother.margin
  · rw [congrArg Cut.area hbetween]
    exact SteadyScalar.add_alike hone.volume hother.volume
  · rw [congrArg Cut.overlap hbetween]
    exact hone.overlap hother

/-- Rectangles without NaN edges can be sorted along each of their axes, and every figure of the
score is what a naive computation gives. -/
theorem scoreSort_recounted (hproper : ∀ r ∈ rects, r.Proper d) (haxis : axis < d) (edge : Edge)
    (minimum : Nat) :
    ∃ s, scoreSort? rects axis edge minimum = some s ∧
      s.Recounted rects d axis edge minimum := by
  have hexists : axisExists rects axis = true := by
    simp only [axisExists, Bool.or_eq_true, List.all_eq_true, decide_eq_true_eq]
    exact .inr fun r hr => (hproper r hr).dim ▸ haxis
  have hpositions := map_position_cutsOf ((sortedEntries rects axis edge).map Prod.fst)
    (max 1 (min minimum (rects.length / 2)))
  rw [← cuts_scoreSort, List.length_map, length_sortedEntries] at hpositions
  have hperm := order_perm rects axis edge minimum
  have hsorted : (scoreSort rects axis edge minimum).order.Pairwise (Precedes rects axis edge) :=
    order_pairwise hproper haxis minimum
  have hmem : ∀ c, c ∈ (scoreSort rects axis edge minimum).cuts.map Cut.position ↔
      max 1 (min minimum (rects.length / 2)) ≤ c ∧
        c ≤ rects.length - max 1 (min minimum (rects.length / 2)) := by
    intro c
    rw [hpositions, List.mem_filter, List.mem_range'_1, Bool.and_eq_true, decide_eq_true_iff,
      decide_eq_true_iff]
    omega
  refine ⟨_, if_pos hexists, rfl, rfl, hperm, hsorted, ?_, ?_, hmem, ?_,
    fun c hc => eq_between_boundOf hproper hc, fun c hc _ _ => weighs_of_mem_cuts hproper hc, rfl⟩
  · intro order hperm' hsorted'
    refine List.Perm.eq_of_pairwise ?_ hsorted' hsorted (hperm'.trans hperm.symm)
    exact fun i j _ _ hij hji => absurd hji hij.asymm
  · rw [hpositions]
    exact List.Pairwise.filter _ List.pairwise_lt_range'
  · rw [← List.map_eq_nil_iff (f := Cut.position), List.eq_nil_iff_forall_not_mem]
    simp only [hmem]
    constructor
    · intro hnone
      have := hnone 1
      have := hnone (rects.length / 2)
      omega
    · intro hlt c
      omega

end Weights

/-- Rectangles of which three have a lower edge of zero on the first axis, one of them the other
zero, and one is unbounded. -/
def zeros : List (Rectangle Float) :=
  [⟨[⟨0, 1⟩, ⟨0, 1⟩]⟩, ⟨[⟨-0, 2⟩, ⟨5, 6⟩]⟩, ⟨[⟨-3, -1⟩, ⟨2, 2⟩]⟩, ⟨[⟨0, 1 / 0⟩, ⟨-1, 1⟩]⟩]

/-- Both zeros count as equal and keep their order; the minimum is more than half the entries. -/
theorem scoreSort_recounted_zeros :
    ∃ s, scoreSort? zeros 0 .low 5 = some s ∧ s.Recounted zeros 2 0 .low 5 ∧
      s.order = [2, 0, 1, 3] ∧ s.cuts.map Cut.position = [2] := by
  have hedges : ∀ r ∈ zeros, r.dim = 2 ∧ (∀ k < 2, isNumber (r.axis k).lo = true) ∧
      ∀ k < 2, isNumber (r.axis k).hi = true := by decide +kernel
  have hproper : ∀ r ∈ zeros, r.Proper 2 := by
    intro r hr
    obtain ⟨hdim, hlo, hhi⟩ := hedges r hr
    exact ⟨hdim, hlo, hhi⟩
  obtain ⟨s, hrun, hs⟩ := scoreSort_recounted hproper (show 0 < 2 by decide) .low 5
  have hfound : (scoreSort? zeros 0 .low 5).map (fun s => (s.order, s.cuts.map Cut.position)) =
      some ([2, 0, 1, 3], [2]) := by decide +kernel
  rw [hrun] at hfound
  exact ⟨s, hrun, hs, Prod.ext_iff.mp (Option.some.inj hfound)⟩

end RTree
