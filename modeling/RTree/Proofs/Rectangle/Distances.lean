import RTree.Rectangle.Distance
import RTree.Proofs.Rectangle.Solid
import RTree.Proofs.Scalar.Monotone

/-!
The least and the greatest distance of two rectangles bound the distances of their points from below
and above, and some points attain them. On each axis this is a matter of which edges face each
other; all four metrics then only need larger entries to make a longer vector.
-/

namespace RTree

open OrderedScalar MonotoneScalar
open Scalar (isFinite isNumber zero)

variable {α : Type} [Scalar α]

/-- The least and the greatest of some values, up to values that count as equal. -/
structure Extremes (least greatest : α) (values : α → Prop) : Prop where
  between : ∀ v, values v → least ≤ v ∧ v ≤ greatest
  least_attained : ∃ v, values v ∧ (v == least) = true
  greatest_attained : ∃ v, values v ∧ (v == greatest) = true

namespace Range

variable {r s : Range α} {x y v : α}

theorem Solid.contains_lo [OrderedScalar α] (h : r.Solid) : r.contains r.lo = true :=
  contains_iff.mpr ⟨Scalar.le_self_iff.mpr (isNumber_of_isFinite h.isFinite_lo), h.lo_le_hi⟩

theorem Solid.contains_hi [OrderedScalar α] (h : r.Solid) : r.contains r.hi = true :=
  contains_iff.mpr ⟨h.lo_le_hi, Scalar.le_self_iff.mpr (isNumber_of_isFinite h.isFinite_hi)⟩

variable [MonotoneScalar α]

theorem Solid.isFinite_of_contains (h : r.Solid) (hx : r.contains x = true) :
    isFinite x = true := by
  obtain ⟨hlo, hhi⟩ := contains_iff.mp hx
  exact isFinite_of_between h.isFinite_lo h.isFinite_hi hlo hhi

theorem Solid.gap_le_iff (hr : r.Solid) (hs : s.Solid) {d : α} :
    r.gap s ≤ d ↔ (s.lo - r.hi ≤ d ∧ r.lo - s.hi ≤ d) ∧ zero ≤ d := by
  have h1 := Scalar.isNumber_sub hs.isFinite_lo hr.isFinite_hi
  have h2 := Scalar.isNumber_sub hr.isFinite_lo hs.isFinite_hi
  rw [gap, Scalar.max_le_iff (Scalar.isNumber_max h1 h2) Scalar.isNumber_zero,
    Scalar.max_le_iff h1 h2]

theorem Solid.span_le_iff (hr : r.Solid) (hs : s.Solid) {d : α} :
    r.span s ≤ d ↔ Scalar.abs (s.hi - r.lo) ≤ d ∧ Scalar.abs (r.hi - s.lo) ≤ d :=
  Scalar.max_le_iff (isNumber_of_le (Scalar.zero_le_abs_sub hs.isFinite_hi hr.isFinite_lo)).2
    (isNumber_of_le (Scalar.zero_le_abs_sub hr.isFinite_hi hs.isFinite_lo)).2

theorem zero_le_gap (r s : Range α) : zero ≤ r.gap s :=
  Scalar.le_max_right _ Scalar.isNumber_zero

theorem Solid.le_gap (hr : r.Solid) (hs : s.Solid) :
    s.lo - r.hi ≤ r.gap s ∧ r.lo - s.hi ≤ r.gap s :=
  ((hr.gap_le_iff hs).mp (Scalar.le_self_iff.mpr (isNumber_of_le (zero_le_gap r s)).2)).1

theorem Solid.le_span (hr : r.Solid) (hs : s.Solid) :
    Scalar.abs (s.hi - r.lo) ≤ r.span s ∧ Scalar.abs (r.hi - s.lo) ≤ r.span s :=
  (hr.span_le_iff hs).mp (Scalar.le_self_iff.mpr (Scalar.isNumber_max
    (isNumber_of_le (Scalar.zero_le_abs_sub hs.isFinite_hi hr.isFinite_lo)).2
    (isNumber_of_le (Scalar.zero_le_abs_sub hr.isFinite_hi hs.isFinite_lo)).2))

/-- Values of two ranges are no nearer than the edges that face each other. -/
theorem Solid.gap_climbs (hr : r.Solid) (hs : s.Solid) (hx : r.contains x = true)
    (hy : s.contains y = true) : Climbs (r.gap s) (Scalar.abs (x - y)) := by
  have hfx := hr.isFinite_of_contains hx
  have hfy := hs.isFinite_of_contains hy
  obtain ⟨hxlo, hxhi⟩ := contains_iff.mp hx
  obtain ⟨hylo, hyhi⟩ := contains_iff.mp hy
  refine ⟨zero_le_gap r s, (hr.gap_le_iff hs).mpr ⟨⟨?_, ?_⟩, Scalar.zero_le_abs_sub hfx hfy⟩⟩
  · calc s.lo - r.hi ≤ y - x := sub_le_sub hs.isFinite_lo hfy hfx hr.isFinite_hi hylo hxhi
      _ ≤ Scalar.abs (y - x) := Scalar.sub_le_abs_sub hfy hfx
      _ ≤ Scalar.abs (x - y) := Scalar.le_of_beq (abs_sub_comm hfy hfx)
  · calc r.lo - s.hi ≤ x - y := sub_le_sub hr.isFinite_lo hfx hfy hs.isFinite_hi hxlo hyhi
      _ ≤ Scalar.abs (x - y) := Scalar.sub_le_abs_sub hfx hfy

/-- Values of two ranges are no farther apart than the edges that face away from each other. -/
theorem Solid.climbs_span (hr : r.Solid) (hs : s.Solid) (hx : r.contains x = true)
    (hy : s.contains y = true) : Climbs (Scalar.abs (x - y)) (r.span s) := by
  have hfx := hr.isFinite_of_contains hx
  have hfy := hs.isFinite_of_contains hy
  obtain ⟨hxlo, hxhi⟩ := contains_iff.mp hx
  obtain ⟨hylo, hyhi⟩ := contains_iff.mp hy
  refine ⟨Scalar.zero_le_abs_sub hfx hfy, ?_⟩
  rcases le_total (isNumber_of_isFinite hfx) (isNumber_of_isFinite hfy) with h | h
  · calc Scalar.abs (x - y) ≤ y - x := Scalar.le_of_beq (Scalar.abs_sub_of_ge hfx hfy h)
      _ ≤ s.hi - r.lo := sub_le_sub hfy hs.isFinite_hi hr.isFinite_lo hfx hyhi hxlo
      _ ≤ Scalar.abs (s.hi - r.lo) := Scalar.sub_le_abs_sub hs.isFinite_hi hr.isFinite_lo
      _ ≤ r.span s := (hr.le_span hs).1
  · calc Scalar.abs (x - y) ≤ x - y := Scalar.le_of_beq (Scalar.abs_sub_of_le hfx hfy h)
      _ ≤ r.hi - s.lo := sub_le_sub hfx hr.isFinite_hi hs.isFinite_lo hfy hxhi hylo
      _ ≤ Scalar.abs (r.hi - s.lo) := Scalar.sub_le_abs_sub hr.isFinite_hi hs.isFinite_lo
      _ ≤ r.span s := (hr.le_span hs).2

/-- Two ranges apart are nearest at the edges between them; else they have a value in common. -/
theorem Solid.exists_climbs_gap (hr : r.Solid) (hs : s.Solid) :
    ∃ x y, r.contains x = true ∧ s.contains y = true ∧
      Climbs (Scalar.abs (x - y)) (r.gap s) := by
  have hnr := isNumber_of_isFinite hr.isFinite_hi
  have hns := isNumber_of_isFinite hs.isFinite_hi
  have hnr' := isNumber_of_isFinite hr.isFinite_lo
  have hns' := isNumber_of_isFinite hs.isFinite_lo
  rcases le_total hnr hns' with hbelow | hmeets
  · refine ⟨r.hi, s.lo, hr.contains_hi, hs.contains_lo,
      Scalar.zero_le_abs_sub hr.isFinite_hi hs.isFinite_lo, ?_⟩
    calc Scalar.abs (r.hi - s.lo) ≤ s.lo - r.hi :=
          Scalar.le_of_beq (Scalar.abs_sub_of_ge hr.isFinite_hi hs.isFinite_lo hbelow)
      _ ≤ r.gap s := (hr.le_gap hs).1
  · rcases le_total hns hnr' with habove | hmeets'
    · refine ⟨r.lo, s.hi, hr.contains_lo, hs.contains_hi,
        Scalar.zero_le_abs_sub hr.isFinite_lo hs.isFinite_hi, ?_⟩
      calc Scalar.abs (r.lo - s.hi) ≤ r.lo - s.hi :=
            Scalar.le_of_beq (Scalar.abs_sub_of_le hr.isFinite_lo hs.isFinite_hi habove)
        _ ≤ r.gap s := (hr.le_gap hs).2
    · have hr' : r.contains (Scalar.max r.lo s.lo) = true := contains_iff.mpr
        ⟨Scalar.le_max_left hnr' hns', (Scalar.max_le_iff hnr' hns').mpr ⟨hr.lo_le_hi, hmeets⟩⟩
      have hs' : s.contains (Scalar.max r.lo s.lo) = true := contains_iff.mpr
        ⟨Scalar.le_max_right _ hns', (Scalar.max_le_iff hnr' hns').mpr ⟨hmeets', hs.lo_le_hi⟩⟩
      have hfinite := hr.isFinite_of_contains hr'
      refine ⟨_, _, hr', hs', Scalar.zero_le_abs_sub hfinite hfinite, ?_⟩
      calc Scalar.abs (Scalar.max r.lo s.lo - Scalar.max r.lo s.lo)
          ≤ Scalar.max r.lo s.lo - Scalar.max r.lo s.lo := Scalar.le_of_beq
            (Scalar.abs_sub_of_le hfinite hfinite (Scalar.le_self_of_isFinite hfinite))
        _ ≤ zero := Scalar.le_of_beq (sub_self hfinite)
        _ ≤ r.gap s := zero_le_gap r s

/-- Two ranges are farthest apart at opposite edges. -/
theorem Solid.exists_span_climbs (hr : r.Solid) (hs : s.Solid) :
    ∃ x y, r.contains x = true ∧ s.contains y = true ∧
      Climbs (r.span s) (Scalar.abs (x - y)) := by
  have hhigh := Scalar.zero_le_abs_sub hr.isFinite_hi hs.isFinite_lo
  have hlow := Scalar.zero_le_abs_sub hs.isFinite_hi hr.isFinite_lo
  rcases Scalar.max_eq_or (Scalar.abs (s.hi - r.lo)) (Scalar.abs (r.hi - s.lo)) with h | h
  · refine ⟨r.lo, s.hi, hr.contains_lo, hs.contains_hi, ?_⟩
    rw [span, h]
    exact ⟨hlow, Scalar.le_of_beq (abs_sub_comm hs.isFinite_hi hr.isFinite_lo)⟩
  · refine ⟨r.hi, s.lo, hr.contains_hi, hs.contains_lo, ?_⟩
    rw [span, h]
    exact ⟨hhigh, Scalar.le_self_iff.mpr (isNumber_of_le hhigh).2⟩

/-- Which of two ranges comes first makes no difference to the gap. -/
theorem Solid.gap_comm (hr : r.Solid) (hs : s.Solid) : Matches (r.gap s) (s.gap r) where
  nonneg := zero_le_gap r s
  beq := by
    have hmax := Scalar.max_comm (Scalar.isNumber_sub hs.isFinite_lo hr.isFinite_hi)
      (Scalar.isNumber_sub hr.isFinite_lo hs.isFinite_hi)
    exact (Scalar.Alike.max (.inl hmax) (.refl zero)).beq (isNumber_of_le (zero_le_gap r s)).2

theorem Solid.zero_le_span (hr : r.Solid) (hs : s.Solid) : zero ≤ r.span s :=
  le_trans (Scalar.zero_le_abs_sub hs.isFinite_hi hr.isFinite_lo) (hr.le_span hs).1

theorem Solid.span_comm (hr : r.Solid) (hs : s.Solid) : Matches (r.span s) (s.span r) where
  nonneg := hr.zero_le_span hs
  beq := Scalar.max_comm
    (isNumber_of_le (Scalar.zero_le_abs_sub hs.isFinite_hi hr.isFinite_lo)).2
    (isNumber_of_le (Scalar.zero_le_abs_sub hr.isFinite_hi hs.isFinite_lo)).2

/-- What a range of one value contains counts as equal to the value. -/
theorem matches_of_single (hv : isFinite v = true) (hx : (single v).contains x = true)
    (hy : isFinite y = true) : Matches (Scalar.abs (v - y)) (Scalar.abs (x - y)) where
  nonneg := Scalar.zero_le_abs_sub hv hy
  beq := Scalar.abs_sub_congr hv ((solid_single hv).isFinite_of_contains hx) hy
    (OrderedScalar.beq_iff.mpr (contains_iff.mp hx))

theorem Solid.gap_single (hr : r.Solid) (hv : isFinite v = true) :
    Matches (r.gap (single v)) (r.gapTo v) where
  nonneg := zero_le_gap r (single v)
  beq := by
    have hmax := Scalar.max_comm (Scalar.isNumber_sub hv hr.isFinite_hi)
      (Scalar.isNumber_sub hr.isFinite_lo hv)
    exact (Scalar.Alike.max (.inl hmax) (.refl zero)).beq
      (isNumber_of_le (zero_le_gap r (single v))).2

theorem Solid.span_self (hr : r.Solid) : Matches (r.span r) r.width where
  nonneg := hr.zero_le_span hr
  beq := by
    have hne : r.isEmpty = false := decide_eq_false fun h => (lt_iff.mp h).2.2 hr.lo_le_hi
    have hwidth : r.width = r.hi - r.lo := by rw [width, hne, if_neg Bool.false_ne_true]
    have hspan : r.span r = Scalar.abs (r.hi - r.lo) := (Scalar.max_eq_or _ _).elim id id
    rw [hspan, hwidth]
    exact Scalar.abs_sub_of_le hr.isFinite_hi hr.isFinite_lo hr.lo_le_hi

end Range

namespace Rectangle

/-- A point of a rectangle has a value of each range. -/
theorem forall₂_contains_iff {d : Nat} {r : Rectangle α} {q : List α} (hd : r.dim = d) :
    List.Forall₂ (fun g v => g.contains v = true) r.ranges q ↔
      q.length = d ∧ r.contains q = true := by
  have hheld : r.contains q = true ↔
      ∀ a b, (a, b) ∈ r.ranges.zip q → a.contains b = true := by
    simp [contains, ← List.map_uncurry_zip_eq_zipWith, List.all_eq_true]
  rw [List.forall₂_iff_zip, hheld, ← hd, dim]
  exact and_congr_left' eq_comm

section Lists

variable {rs ss : List (Range α)} {xs ys : List α} {R : α → α → Prop} {f g : Range α → Range α → α}

/-- What holds of the differences on one axis holds on all. -/
theorem forall₂_apart
    (hf : ∀ {r s : Range α} {x y : α}, r.Solid → s.Solid → r.contains x = true →
      s.contains y = true → R (f r s) (Scalar.abs (x - y)))
    (hr : ∀ g ∈ rs, g.Solid) (hs : ∀ g ∈ ss, g.Solid)
    (hx : List.Forall₂ (fun g v => g.contains v = true) rs xs)
    (hy : List.Forall₂ (fun g v => g.contains v = true) ss ys) :
    List.Forall₂ R (List.zipWith f rs ss)
      (List.zipWith (fun x y => Scalar.abs (x - y)) xs ys) := by
  induction hx generalizing ss ys with
  | nil => exact .nil
  | cons hx _ ih =>
    cases hy with
    | nil => exact .nil
    | cons hy hys =>
      obtain ⟨hr, hrs⟩ := List.forall_mem_cons.mp hr
      obtain ⟨hs, hss⟩ := List.forall_mem_cons.mp hs
      exact .cons (hf hr hs hx hy) (ih hrs hss hys)

/-- Values that can be chosen on one axis can be chosen on all. -/
theorem exists_apart
    (hf : ∀ {r s : Range α}, r.Solid → s.Solid → ∃ x y, r.contains x = true ∧
      s.contains y = true ∧ R (f r s) (Scalar.abs (x - y)))
    (hr : ∀ g ∈ rs, g.Solid) (hs : ∀ g ∈ ss, g.Solid) (hl : rs.length = ss.length) :
    ∃ xs ys, List.Forall₂ (fun g v => g.contains v = true) rs xs ∧
      List.Forall₂ (fun g v => g.contains v = true) ss ys ∧
      List.Forall₂ R (List.zipWith f rs ss)
        (List.zipWith (fun x y => Scalar.abs (x - y)) xs ys) := by
  induction rs generalizing ss with
  | nil =>
    obtain rfl : ss = [] := List.eq_nil_of_length_eq_zero hl.symm
    exact ⟨[], [], .nil, .nil, .nil⟩
  | cons r rs ih =>
    obtain ⟨s, ss, rfl⟩ := List.exists_cons_of_length_eq_add_one hl.symm
    obtain ⟨hr, hrs⟩ := List.forall_mem_cons.mp hr
    obtain ⟨hs, hss⟩ := List.forall_mem_cons.mp hs
    obtain ⟨x, y, hx, hy, hxy⟩ := hf hr hs
    obtain ⟨xs, ys, hxs, hys, hall⟩ := ih hrs hss (Nat.succ.inj hl)
    exact ⟨x :: xs, y :: ys, .cons hx hxs, .cons hy hys, .cons hxy hall⟩

omit [Scalar α] in
/-- Two ways to combine entries that agree on one axis agree on all. -/
theorem forall₂_zipWith {β γ : Type} {f g : β → γ → α} {bs : List β} {cs : List γ}
    (h : ∀ b ∈ bs, ∀ c ∈ cs, R (f b c) (g b c)) :
    List.Forall₂ R (List.zipWith f bs cs) (List.zipWith g bs cs) := by
  induction bs generalizing cs with
  | nil => exact .nil
  | cons b bs ih =>
    cases cs with
    | nil => exact .nil
    | cons c cs =>
      refine .cons (h b List.mem_cons_self c List.mem_cons_self) (ih fun b hb c hc => ?_)
      exact h b (List.mem_cons_of_mem _ hb) c (List.mem_cons_of_mem _ hc)

end Lists

variable [MonotoneScalar α] {d : Nat} {r s : Rectangle α} {p x y : List α} (m : Metric)

theorem Solid.minDist_eq (hr : r.Solid d) (hs : s.Solid d) :
    r.minDist m s = m.norm (List.zipWith Range.gap r.ranges s.ranges) := by
  rw [minDist, hr.isEmpty, hs.isEmpty, Bool.or_self, if_neg Bool.false_ne_true]

theorem Solid.maxDist_eq (hr : r.Solid d) (hs : s.Solid d) :
    r.maxDist m s = m.norm (List.zipWith Range.span r.ranges s.ranges) := by
  rw [maxDist, hr.isEmpty, hs.isEmpty, Bool.or_self, if_neg Bool.false_ne_true]

theorem Solid.minDist_le (hr : r.Solid d) (hs : s.Solid d)
    (hx : List.Forall₂ (fun g v => g.contains v = true) r.ranges x)
    (hy : List.Forall₂ (fun g v => g.contains v = true) s.ranges y) :
    r.minDist m s ≤ m.distance x y := by
  rw [hr.minDist_eq m hs]
  apply m.combine_le
  rw [List.forall₂_map_left_iff]
  refine forall₂_apart (R := fun a b => Climbs (Scalar.abs a) b) ?_ hr.ranges hs.ranges hx hy
  exact fun hr hs hx hy => (hr.gap_climbs hs hx hy).abs_left

theorem Solid.le_maxDist (hr : r.Solid d) (hs : s.Solid d)
    (hx : List.Forall₂ (fun g v => g.contains v = true) r.ranges x)
    (hy : List.Forall₂ (fun g v => g.contains v = true) s.ranges y) :
    m.distance x y ≤ r.maxDist m s := by
  rw [hr.maxDist_eq m hs]
  apply m.combine_le
  rw [List.forall₂_map_right_iff]
  refine (forall₂_apart (R := fun a b => Climbs b (Scalar.abs a)) ?_ hr.ranges hs.ranges
    hx hy).flip
  exact fun hr hs hx hy => (hr.climbs_span hs hx hy).abs_right

/-- The two points that are nearest to each other. -/
theorem Solid.exists_minDist (hr : r.Solid d) (hs : s.Solid d) :
    ∃ x y, List.Forall₂ (fun g v => g.contains v = true) r.ranges x ∧
      List.Forall₂ (fun g v => g.contains v = true) s.ranges y ∧
      m.distance x y ≤ r.minDist m s := by
  obtain ⟨x, y, hx, hy, hall⟩ := exists_apart (R := fun a b => Climbs b (Scalar.abs a))
    (f := Range.gap) (fun hr hs => by
      obtain ⟨x, y, hx, hy, h⟩ := hr.exists_climbs_gap hs
      exact ⟨x, y, hx, hy, h.abs_right⟩) hr.ranges hs.ranges (hr.dim.trans hs.dim.symm)
  refine ⟨x, y, hx, hy, ?_⟩
  rw [hr.minDist_eq m hs]
  exact m.combine_le (List.forall₂_map_right_iff.mpr hall.flip)

/-- The two points that are farthest from each other. -/
theorem Solid.exists_maxDist (hr : r.Solid d) (hs : s.Solid d) :
    ∃ x y, List.Forall₂ (fun g v => g.contains v = true) r.ranges x ∧
      List.Forall₂ (fun g v => g.contains v = true) s.ranges y ∧
      r.maxDist m s ≤ m.distance x y := by
  obtain ⟨x, y, hx, hy, hall⟩ := exists_apart (R := fun a b => Climbs (Scalar.abs a) b)
    (f := Range.span) (fun hr hs => by
      obtain ⟨x, y, hx, hy, h⟩ := hr.exists_span_climbs hs
      exact ⟨x, y, hx, hy, h.abs_left⟩) hr.ranges hs.ranges (hr.dim.trans hs.dim.symm)
  refine ⟨x, y, hx, hy, ?_⟩
  rw [hr.maxDist_eq m hs]
  exact m.combine_le (List.forall₂_map_left_iff.mpr hall)

theorem minDist_comm (hr : r.Solid d) (hs : s.Solid d) :
    (r.minDist m s == s.minDist m r) = true := by
  have hflip : List.zipWith Range.gap s.ranges r.ranges =
      List.zipWith (fun g g' => g'.gap g) r.ranges s.ranges := List.zipWith_comm
  rw [hr.minDist_eq m hs, hs.minDist_eq m hr, hflip]
  exact m.norm_beq (forall₂_zipWith fun g hg g' hg' => (hr.ranges g hg).gap_comm (hs.ranges g' hg'))

theorem maxDist_comm (hr : r.Solid d) (hs : s.Solid d) :
    (r.maxDist m s == s.maxDist m r) = true := by
  have hflip : List.zipWith Range.span s.ranges r.ranges =
      List.zipWith (fun g g' => g'.span g) r.ranges s.ranges := List.zipWith_comm
  rw [hr.maxDist_eq m hs, hs.maxDist_eq m hr, hflip]
  exact m.norm_beq
    (forall₂_zipWith fun g hg g' hg' => (hr.ranges g hg).span_comm (hs.ranges g' hg'))

theorem minDist_ofPoint (hr : r.Solid d) (hp : FinitePoint d p) :
    (r.minDist m (ofPoint p) == r.pointMinDist m p) = true := by
  rw [hr.minDist_eq m hp.solid, pointMinDist, hr.isEmpty, if_neg Bool.false_ne_true]
  rw [show (ofPoint p).ranges = p.map Range.single from rfl, List.zipWith_map_right]
  exact m.norm_beq
    (forall₂_zipWith fun g hg v hv => (hr.ranges g hg).gap_single (hp.isFinite v hv))

theorem maxDist_ofPoint (hr : r.Solid d) (hp : FinitePoint d p) :
    r.maxDist m (ofPoint p) = r.pointMaxDist m p := by
  rw [hr.maxDist_eq m hp.solid, pointMaxDist, hr.isEmpty, if_neg Bool.false_ne_true]
  rw [show (ofPoint p).ranges = p.map Range.single from rfl, List.zipWith_map_right]
  rfl

theorem maxDist_self (hr : r.Solid d) : (r.maxDist m r == r.diameter m) = true := by
  rw [hr.maxDist_eq m hr, List.zipWith_self, diameter]
  apply m.norm_beq
  rw [List.forall₂_map_left_iff, List.forall₂_map_right_iff, List.forall₂_same]
  exact fun g hg => (hr.ranges g hg).span_self

/-- A point of the rectangle of one point is as far from others as that point. -/
theorem distance_of_ofPoint (hp : FinitePoint d p) (hy : ∀ v ∈ y, isFinite v = true)
    (hx : List.Forall₂ (fun g v => g.contains v = true) (ofPoint p).ranges x) :
    (m.distance p y == m.distance x y) = true := by
  apply m.combine_beq
  have hall := List.forall₂_map_left_iff.mp hx
  have hfinite := hp.isFinite
  clear hp hx
  induction hall generalizing y with
  | nil => exact .nil
  | cons hx _ ih =>
    cases y with
    | nil => exact .nil
    | cons v y =>
      obtain ⟨hv, hy⟩ := List.forall_mem_cons.mp hy
      obtain ⟨hu, hp⟩ := List.forall_mem_cons.mp hfinite
      exact .cons (Range.matches_of_single hu hx hv) (ih hy hp)

theorem Solid.isFinite_of_mem (hr : r.Solid d)
    (hy : List.Forall₂ (fun g v => g.contains v = true) r.ranges y) :
    ∀ v ∈ y, isFinite v = true := by
  intro v hv
  obtain ⟨i, hi, rfl⟩ := List.getElem_of_mem hv
  have hi' : i < r.ranges.length := hy.length_eq ▸ hi
  exact (hr.ranges _ (List.getElem_mem hi')).isFinite_of_contains (hy.get hi' hi)

/-- The points of two rectangles are no nearer than the least distance of the rectangles, and no
farther apart than the greatest one. -/
theorem Solid.extremes (hr : r.Solid d) (hs : s.Solid d) :
    Extremes (r.minDist m s) (r.maxDist m s) fun v => ∃ x y,
      (x.length = d ∧ r.contains x = true) ∧ (y.length = d ∧ s.contains y = true) ∧
        v = m.distance x y := by
  simp only [← forall₂_contains_iff hr.dim, ← forall₂_contains_iff hs.dim]
  obtain ⟨x, y, hx, hy, hnear⟩ := hr.exists_minDist m hs
  obtain ⟨x', y', hx', hy', hfar⟩ := hr.exists_maxDist m hs
  refine ⟨?_, ⟨_, ⟨x, y, hx, hy, rfl⟩, ?_⟩, ⟨_, ⟨x', y', hx', hy', rfl⟩, ?_⟩⟩
  · rintro v ⟨x, y, hx, hy, rfl⟩
    exact ⟨hr.minDist_le m hs hx hy, hr.le_maxDist m hs hx hy⟩
  · exact OrderedScalar.beq_iff.mpr ⟨hnear, hr.minDist_le m hs hx hy⟩
  · exact OrderedScalar.beq_iff.mpr ⟨hr.le_maxDist m hs hx' hy', hfar⟩

/-- The points of a rectangle are as far from a point as from the rectangle of that point. -/
theorem Solid.extremes_point (hr : r.Solid d) (hp : FinitePoint d p) :
    Extremes (r.pointMinDist m p) (r.pointMaxDist m p) fun v => ∃ q,
      (q.length = d ∧ r.contains q = true) ∧ v = m.distance p q := by
  have hmin := Scalar.beq_trans (minDist_comm m hp.solid hr) (minDist_ofPoint m hr hp)
  have hmax := maxDist_comm m hp.solid hr
  rw [maxDist_ofPoint m hr hp] at hmax
  obtain ⟨hbetween, hnear, hfar⟩ := hp.solid.extremes m hr
  have hshift : ∀ {x y}, (x.length = d ∧ (ofPoint p).contains x = true) →
      (y.length = d ∧ r.contains y = true) → (m.distance p y == m.distance x y) = true := by
    intro x y hx hy
    have hy' := (forall₂_contains_iff hr.dim).mpr hy
    exact distance_of_ofPoint m hp (hr.isFinite_of_mem hy')
      ((forall₂_contains_iff hp.solid.dim).mpr hx)
  refine ⟨?_, ?_, ?_⟩
  · rintro v ⟨q, hq, rfl⟩
    obtain ⟨hle, hge⟩ := hbetween _ ⟨p, q, ⟨hp.length, hp.contains_self⟩, hq, rfl⟩
    exact ⟨le_trans (Scalar.ge_of_beq hmin) hle, le_trans hge (Scalar.le_of_beq hmax)⟩
  · obtain ⟨v, ⟨x, y, hx, hy, rfl⟩, hv⟩ := hnear
    exact ⟨_, ⟨y, hy, rfl⟩, Scalar.beq_trans (hshift hx hy) (Scalar.beq_trans hv hmin)⟩
  · obtain ⟨v, ⟨x, y, hx, hy, rfl⟩, hv⟩ := hfar
    exact ⟨_, ⟨y, hy, rfl⟩, Scalar.beq_trans (hshift hx hy) (Scalar.beq_trans hv hmax)⟩

/-- The distances of rectangles and of points to rectangles are the least and the greatest between
their points. They do not depend on the order of the rectangles, a point is as good as its
rectangle, and the farthest points of one rectangle are its diameter apart. -/
theorem distances_bracketed (hr : r.Solid d) (hs : s.Solid d) (hp : FinitePoint d p) :
    (Extremes (r.pointMinDist m p) (r.pointMaxDist m p) fun v => ∃ q,
      (q.length = d ∧ r.contains q = true) ∧ v = m.distance p q) ∧
    (Extremes (r.minDist m s) (r.maxDist m s) fun v => ∃ x y,
      (x.length = d ∧ r.contains x = true) ∧ (y.length = d ∧ s.contains y = true) ∧
        v = m.distance x y) ∧
    ((r.minDist m s == s.minDist m r) = true ∧ (r.maxDist m s == s.maxDist m r) = true) ∧
    ((r.minDist m (ofPoint p) == r.pointMinDist m p) = true ∧
      r.maxDist m (ofPoint p) = r.pointMaxDist m p) ∧
    (r.maxDist m r == r.diameter m) = true :=
  ⟨hr.extremes_point m hp, hr.extremes m hs, ⟨minDist_comm m hr hs, maxDist_comm m hr hs⟩,
    ⟨minDist_ofPoint m hr hp, maxDist_ofPoint m hr hp⟩, maxDist_self m hr⟩

section

/-- The whole part of a root. -/
local instance wholeRoot : SquareRoot := ⟨fun q => Nat.sqrt ⌊q⌋.toNat⟩

local instance wholeRoot_monotone : MonotoneRoot where
  root_le_root _ hle := Nat.cast_le.mpr
    (Nat.sqrt_le_sqrt (Int.toNat_le_toNat (Int.floor_mono hle)))

open Exact (finite)

/-- One to the left and below of the other, three and four apart. -/
def lower : Rectangle Exact := ⟨[⟨finite 0, finite 1⟩, ⟨finite 0, finite 4⟩]⟩

def upper : Rectangle Exact := ⟨[⟨finite 4, finite 5⟩, ⟨finite 8, finite 12⟩]⟩

/-- The nearest corners are a triangle of sides three, four and five apart, the farthest one of
five, twelve and thirteen. -/
theorem distances_bracketed_corners :
    (Extremes (finite 5) (finite 13) fun v => ∃ x y,
      (x.length = 2 ∧ lower.contains x = true) ∧ (y.length = 2 ∧ upper.contains y = true) ∧
        v = Metric.euclidean.distance x y) ∧
      lower.pointMinDist .euclidean [finite 4, finite 8] = finite 5 := by
  have hlower : lower.Solid 2 :=
    ⟨rfl, List.forall_mem_cons.mpr ⟨Range.solid_finite (by norm_num),
      List.forall_mem_singleton.mpr (Range.solid_finite (by norm_num))⟩⟩
  have hupper : upper.Solid 2 :=
    ⟨rfl, List.forall_mem_cons.mpr ⟨Range.solid_finite (by norm_num),
      List.forall_mem_singleton.mpr (Range.solid_finite (by norm_num))⟩⟩
  have hpoint : FinitePoint 2 [finite 4, finite 8] := ⟨rfl, by decide⟩
  obtain ⟨-, hextremes, -⟩ := distances_bracketed .euclidean hlower hupper hpoint
  have hmin : lower.minDist .euclidean upper = finite 5 := by decide +kernel
  have hmax : lower.maxDist .euclidean upper = finite 13 := by decide +kernel
  rw [hmin, hmax] at hextremes
  exact ⟨hextremes, by decide +kernel⟩

end

end Rectangle

end RTree
