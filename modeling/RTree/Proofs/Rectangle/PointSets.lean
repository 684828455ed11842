import RTree.Proofs.Rectangle.Hull
import RTree.Proofs.Scalar.Binary64

namespace RTree

open OrderedScalar
open Scalar hiding min max

variable {α : Type} [Scalar α]

namespace Rectangle

/-- A rectangle without an empty range, or the one that is empty on all axes alike. -/
structure Regular (d : Nat) (r : Rectangle α) : Prop where
  proper : r.Proper d
  isEmpty_or_eq : r.isEmpty = false ∨ r = empty d

structure IsJoin (d : Nat) (a b u : Rectangle α) : Prop where
  regular : u.Regular d
  left : u.includes a = true
  right : u.includes b = true
  least : ∀ c : Rectangle α, c.Proper d → c.includes a = true → c.includes b = true →
    c.includes u = true

def lowCorner (r : Rectangle α) : List α := r.ranges.map Range.lo

def highCorner (r : Rectangle α) : List α := r.ranges.map Range.hi

def commonCorner (a b : Rectangle α) : List α :=
  List.zipWith (fun r s => Scalar.max r.lo s.lo) a.ranges b.ranges

omit [Scalar α] in
@[simp] theorem length_lowCorner (r : Rectangle α) : r.lowCorner.length = r.dim := by
  simp [lowCorner, dim]

omit [Scalar α] in
@[simp] theorem length_highCorner (r : Rectangle α) : r.highCorner.length = r.dim := by
  simp [highCorner, dim]

@[simp] theorem length_commonCorner (a b : Rectangle α) :
    (commonCorner a b).length = min a.dim b.dim := by simp [commonCorner, dim]

theorem axis_ofPoint_lowCorner {r : Rectangle α} {k : Nat} (hk : k < r.dim) :
    (ofPoint r.lowCorner).axis k = Range.single (r.axis k).lo := by
  have hk' : k < r.ranges.length := hk
  rw [axis_ofPoint (by simpa using hk), axis_eq_getElem hk']
  simp [lowCorner]

theorem axis_ofPoint_highCorner {r : Rectangle α} {k : Nat} (hk : k < r.dim) :
    (ofPoint r.highCorner).axis k = Range.single (r.axis k).hi := by
  have hk' : k < r.ranges.length := hk
  rw [axis_ofPoint (by simpa using hk), axis_eq_getElem hk']
  simp [highCorner]

theorem axis_ofPoint_commonCorner {a b : Rectangle α} {k : Nat} (ha : k < a.dim) (hb : k < b.dim) :
    (ofPoint (commonCorner a b)).axis k =
      Range.single (Scalar.max (a.axis k).lo (b.axis k).lo) := by
  have ha' : k < a.ranges.length := ha
  have hb' : k < b.ranges.length := hb
  rw [axis_ofPoint (by simp [ha, hb]), axis_eq_getElem ha', axis_eq_getElem hb']
  simp [commonCorner]

variable {d : Nat} {a b c r s : Rectangle α} {p : List α}

/-- A point whose coordinates are numbers is known axis by axis. -/
theorem numberPoint_of_axis (hp : p.length = d)
    (h : ∀ k < d, Scalar.isNumber ((ofPoint p).axis k).lo = true) : NumberPoint d p where
  length := hp
  isNumber := by
    intro v hv
    obtain ⟨k, hk, rfl⟩ := List.getElem_of_mem hv
    have haxis := h k (hp ▸ hk)
    rwa [axis_ofPoint hk] at haxis

theorem Proper.lowCorner (h : r.Proper d) : NumberPoint d r.lowCorner := by
  refine numberPoint_of_axis (by rw [length_lowCorner, h.dim]) fun k hk => ?_
  rw [axis_ofPoint_lowCorner (h.dim ▸ hk)]
  exact h.isNumber_lo k hk

theorem Proper.highCorner (h : r.Proper d) : NumberPoint d r.highCorner := by
  refine numberPoint_of_axis (by rw [length_highCorner, h.dim]) fun k hk => ?_
  rw [axis_ofPoint_highCorner (h.dim ▸ hk)]
  exact h.isNumber_hi k hk

theorem Proper.commonCorner (ha : a.Proper d) (hb : b.Proper d) :
    NumberPoint d (commonCorner a b) := by
  have hlength : (Rectangle.commonCorner a b).length = d := by
    rw [length_commonCorner, ha.dim, hb.dim, Nat.min_self]
  refine numberPoint_of_axis hlength fun k hk => ?_
  rw [axis_ofPoint_commonCorner (ha.dim ▸ hk) (hb.dim ▸ hk)]
  exact isNumber_max (ha.isNumber_lo k hk) (hb.isNumber_lo k hk)

section Order

variable [OrderedScalar α]

/-- The edges of a rectangle that is not empty are in order. -/
theorem Proper.lo_le_hi (h : r.Proper d) (hne : r.isEmpty = false) :
    ∀ k < d, (r.axis k).lo ≤ (r.axis k).hi := by
  intro k hk
  have hk' : k < r.ranges.length := lt_of_lt_of_eq hk h.dim.symm
  have hrange : (r.axis k).isEmpty = false := by
    rw [axis_eq_getElem hk']
    simpa using List.any_eq_false.mp hne _ (List.getElem_mem hk')
  exact le_of_not_lt (h.isNumber_lo k hk) (h.isNumber_hi k hk) (of_decide_eq_false hrange)

omit [OrderedScalar α] in
/-- Inclusion of a rectangle that is not empty is decided by the edges. -/
theorem includes_iff_edges (ha : a.dim = d) (hb : b.dim = d) (hne : b.isEmpty = false) :
    a.includes b = true ↔
      ∀ k < d, (a.axis k).lo ≤ (b.axis k).lo ∧ (b.axis k).hi ≤ (a.axis k).hi := by
  unfold includes
  rw [hne, Bool.false_or, forall_mem_zipWith (ha.trans hb.symm), ha]
  simp only [Range.covers, Bool.and_eq_true, decide_eq_true_iff]

/-- A rectangle holds its lower corner if it holds anything. -/
theorem Proper.contains_lowCorner (h : r.Proper d) (hne : r.isEmpty = false) :
    r.contains r.lowCorner = true := by
  rw [contains_iff (h.dim.trans h.lowCorner.length.symm)]
  intro k hk
  rw [axis_ofPoint_lowCorner hk]
  have hk' := h.dim ▸ hk
  exact ⟨le_self_iff.mpr (h.isNumber_lo k hk'), h.lo_le_hi hne k hk'⟩

theorem Proper.contains_highCorner (h : r.Proper d) (hne : r.isEmpty = false) :
    r.contains r.highCorner = true := by
  rw [contains_iff (h.dim.trans h.highCorner.length.symm)]
  intro k hk
  rw [axis_ofPoint_highCorner hk]
  have hk' := h.dim ▸ hk
  exact ⟨h.lo_le_hi hne k hk', le_self_iff.mpr (h.isNumber_hi k hk')⟩

omit [OrderedScalar α] in
/-- What holds both corners of a rectangle includes it. -/
theorem includes_of_corners (ha : a.Proper d) (hb : b.Proper d) (hne : b.isEmpty = false)
    (hlow : a.contains b.lowCorner = true) (hhigh : a.contains b.highCorner = true) :
    a.includes b = true := by
  rw [contains_iff (ha.dim.trans hb.lowCorner.length.symm)] at hlow
  rw [contains_iff (ha.dim.trans hb.highCorner.length.symm)] at hhigh
  rw [includes_iff_edges ha.dim hb.dim hne]
  intro k hk
  have h1 := hlow k (ha.dim ▸ hk)
  have h2 := hhigh k (ha.dim ▸ hk)
  rw [axis_ofPoint_lowCorner (hb.dim ▸ hk)] at h1
  rw [axis_ofPoint_highCorner (hb.dim ▸ hk)] at h2
  exact ⟨h1.1, h2.2⟩

/-- A rectangle includes those whose points it holds. -/
theorem includes_iff_points (ha : a.Proper d) (hb : b.Proper d) :
    a.includes b = true ↔
      ∀ p, NumberPoint d p → b.contains p = true → a.contains p = true := by
  cases hne : b.isEmpty with
  | true =>
    refine ⟨fun _ p hp hheld => ?_, fun _ => by simp [includes, hne]⟩
    rw [isEmpty_eq_false (hb.dim.trans hp.length.symm) hheld] at hne
    cases hne
  | false =>
    constructor
    · intro hinc p hp hheld
      rw [includes_iff_edges ha.dim hb.dim hne] at hinc
      rw [contains_iff (hb.dim.trans hp.length.symm), hb.dim] at hheld
      rw [contains_iff (ha.dim.trans hp.length.symm), ha.dim]
      intro k hk
      exact ⟨le_trans (hinc k hk).1 (hheld k hk).1, le_trans (hheld k hk).2 (hinc k hk).2⟩
    · intro hall
      exact includes_of_corners ha hb hne (hall _ hb.lowCorner (hb.contains_lowCorner hne))
        (hall _ hb.highCorner (hb.contains_highCorner hne))

/-- Rectangles that intersect share the lower corner of what they have in common. -/
theorem contains_commonCorner (ha : a.Proper d) (hb : b.Proper d) (h : a.intersects b = true) :
    a.contains (commonCorner a b) = true ∧ b.contains (commonCorner a b) = true := by
  unfold intersects at h
  simp only [Bool.and_eq_true, Bool.not_eq_true'] at h
  obtain ⟨⟨hane, hbne⟩, hmeets⟩ := h
  rw [forall_mem_zipWith (ha.dim.trans hb.dim.symm), ha.dim] at hmeets
  have hp := ha.commonCorner hb
  have hcorner : ∀ k < d,
      ((a.axis k).lo ≤ Scalar.max (a.axis k).lo (b.axis k).lo ∧
        (b.axis k).lo ≤ Scalar.max (a.axis k).lo (b.axis k).lo) ∧
      Scalar.max (a.axis k).lo (b.axis k).lo ≤ (a.axis k).hi ∧
        Scalar.max (a.axis k).lo (b.axis k).lo ≤ (b.axis k).hi := by
    intro k hk
    have hna := ha.isNumber_lo k hk
    have hnb := hb.isNumber_lo k hk
    obtain ⟨hab, hba⟩ := Range.meets_iff.mp (hmeets k hk)
    refine ⟨(max_le_iff hna hnb).mp (le_self_iff.mpr (isNumber_max hna hnb)), ?_, ?_⟩
    · exact (max_le_iff hna hnb).mpr ⟨ha.lo_le_hi hane k hk, hba⟩
    · exact (max_le_iff hna hnb).mpr ⟨hab, hb.lo_le_hi hbne k hk⟩
  constructor
  · rw [contains_iff (ha.dim.trans hp.length.symm), ha.dim]
    intro k hk
    rw [axis_ofPoint_commonCorner (ha.dim ▸ hk) (hb.dim ▸ hk)]
    exact ⟨(hcorner k hk).1.1, (hcorner k hk).2.1⟩
  · rw [contains_iff (hb.dim.trans hp.length.symm), hb.dim]
    intro k hk
    rw [axis_ofPoint_commonCorner (ha.dim ▸ hk) (hb.dim ▸ hk)]
    exact ⟨(hcorner k hk).1.2, (hcorner k hk).2.2⟩

/-- Rectangles intersect when they share a point. -/
theorem intersects_iff_point (ha : a.Proper d) (hb : b.Proper d) :
    a.intersects b = true ↔ ∃ p, NumberPoint d p ∧ a.contains p = true ∧ b.contains p = true := by
  constructor
  · intro h
    exact ⟨commonCorner a b, ha.commonCorner hb, contains_commonCorner ha hb h⟩
  · rintro ⟨p, hp, hap, hbp⟩
    exact intersects_of_contains (ha.dim.trans hp.length.symm) (hb.dim.trans hp.length.symm) hap hbp

/-- A rectangle includes what lies in all the half-spaces that it lies in. -/
theorem includes_of_within (ha : a.Proper d) (hb : b.Proper d)
    (h : ∀ g : HalfSpace α, g.Valid d → a.Within g → b.Within g) : a.includes b = true := by
  cases hne : b.isEmpty with
  | true => simp [includes, hne]
  | false =>
    rw [includes_iff_edges ha.dim hb.dim hne]
    intro k hk
    have hlo := ha.isNumber_lo k hk
    have hhi := ha.isNumber_hi k hk
    exact ⟨h (.above k (a.axis k).lo) ⟨hk, hlo⟩ (le_self_iff.mpr hlo),
      h (.below k (a.axis k).hi) ⟨hk, hhi⟩ (le_self_iff.mpr hhi)⟩

/-- What a rectangle includes lies in all its half-spaces, unless it is empty on some axes only. -/
theorem Regular.within (hb : b.Regular d) (ha : a.dim = d) (h : a.includes b = true)
    {g : HalfSpace α} (hg : g.Valid d) (hw : a.Within g) : b.Within g := by
  rcases hb.isEmpty_or_eq with hne | rfl
  · rw [includes_iff_edges ha hb.proper.dim hne] at h
    cases g with
    | above k x => exact le_trans hw (h k hg.1).1
    | below k x => exact le_trans (h k hg.1).2 hw
  · exact within_empty hg

/-- A rectangle that includes one with points has points itself. -/
theorem isEmpty_of_includes (ha : a.dim = d) (hb : b.Proper d) (hne : b.isEmpty = false)
    (h : a.includes b = true) : a.isEmpty = false := by
  rw [includes_iff_edges ha hb.dim hne] at h
  refine isEmpty_of_lo_le_hi fun g hg => ?_
  obtain ⟨k, hk, rfl⟩ := List.getElem_of_mem hg
  have hk' : k < d := lt_of_lt_of_eq hk ha
  have hedges := h k hk'
  rw [axis_eq_getElem hk] at hedges
  exact le_trans hedges.1 (le_trans (hb.lo_le_hi hne k hk') hedges.2)

omit [OrderedScalar α] in
theorem empty_union_empty (d : Nat) :
    (empty d : Rectangle α).union (empty d) = empty d := by
  have htop : Scalar.min (Scalar.top : α) Scalar.top = Scalar.top := by
    simp [Scalar.min]
  have hbottom : Scalar.max (Scalar.bottom : α) Scalar.bottom = Scalar.bottom := by
    simp [Scalar.max]
  simp [union, empty, Range.union, Range.empty, htop, hbottom]

/-- The union is the least rectangle that includes both. -/
theorem Regular.isJoin_union (ha : a.Regular d) (hb : b.Regular d) : IsJoin d a b (a.union b) := by
  have hunion : (a.union b).Proper d := ha.proper.union hb.proper
  have hleft : (a.union b).includes a = true := includes_of_within hunion ha.proper
    fun g hg hw => ((within_union ha.proper hb.proper hg).mp hw).1
  have hright : (a.union b).includes b = true := includes_of_within hunion hb.proper
    fun g hg hw => ((within_union ha.proper hb.proper hg).mp hw).2
  refine ⟨⟨hunion, ?_⟩, hleft, hright, fun c hc hca hcb => ?_⟩
  · rcases ha.isEmpty_or_eq with hne | rfl
    · exact .inl (isEmpty_of_includes hunion.dim ha.proper hne hleft)
    · rcases hb.isEmpty_or_eq with hne | rfl
      · exact .inl (isEmpty_of_includes hunion.dim hb.proper hne hright)
      · exact .inr (empty_union_empty d)
  · refine includes_of_within hc hunion fun g hg hw => ?_
    exact (within_union ha.proper hb.proper hg).mpr
      ⟨ha.within hc.dim hca hg hw, hb.within hc.dim hcb hg hw⟩

theorem union_comm (ha : a.Proper d) (hb : b.Proper d) : (a.union b == b.union a) = true :=
  beq_of_within (ha.union hb) (hb.union ha) fun g hg => by
    rw [within_union ha hb hg, within_union hb ha hg, and_comm]

theorem union_assoc (ha : a.Proper d) (hb : b.Proper d) (hc : c.Proper d) :
    ((a.union b).union c == a.union (b.union c)) = true :=
  beq_of_within ((ha.union hb).union hc) (ha.union (hb.union hc)) fun g hg => by
    rw [within_union (ha.union hb) hc hg, within_union ha hb hg, within_union ha (hb.union hc) hg,
      within_union hb hc hg, and_assoc]

theorem union_self (ha : a.Proper d) : (a.union a == a) = true :=
  beq_of_within (ha.union ha) ha fun g hg => by rw [within_union ha ha hg, and_self]

theorem empty_union_beq (ha : a.Proper d) : ((empty d).union a == a) = true :=
  beq_of_within ((proper_empty d).union ha) ha fun g hg => by
    simp [within_union (proper_empty d) ha hg, within_empty hg]

theorem union_empty_beq (ha : a.Proper d) : (a.union (empty d) == a) = true :=
  beq_of_within (ha.union (proper_empty d)) ha fun g hg => by
    simp [within_union ha (proper_empty d) hg, within_empty hg]

/-- The bound of some rectangles does not depend on their order. -/
theorem foldl_union_perm {rs ss : List (Rectangle α)} (hperm : rs.Perm ss)
    (h : ∀ r ∈ rs, r.Proper d) :
    (rs.foldl Rectangle.union (empty d) == ss.foldl Rectangle.union (empty d)) = true := by
  have hrs := isHull_foldl h (isHull_nil d)
  have hss := isHull_foldl (fun s hs => h s (hperm.mem_iff.mpr hs)) (isHull_nil d)
  rw [List.nil_append] at hrs hss
  exact hrs.beq (hss.congr fun g _ => by simp only [hperm.mem_iff])

omit [OrderedScalar α] in
theorem foldl_insert_eq (ps : List (List α)) (r : Rectangle α) :
    ps.foldl Rectangle.insert r = (ps.map ofPoint).foldl Rectangle.union r := by
  induction ps generalizing r with
  | nil => rfl
  | cons p ps ih => rw [List.foldl_cons, ih, insert_eq_union, List.map_cons, List.foldl_cons]

/-- The bound of some points does not depend on their order. -/
theorem foldl_insert_perm {ps qs : List (List α)} (hperm : ps.Perm qs)
    (h : ∀ p ∈ ps, NumberPoint d p) :
    (ps.foldl Rectangle.insert (empty d) == qs.foldl Rectangle.insert (empty d)) = true := by
  rw [foldl_insert_eq, foldl_insert_eq]
  apply foldl_union_perm (hperm.map ofPoint)
  intro r hr
  obtain ⟨p, hp, rfl⟩ := List.mem_map.mp hr
  exact (h p hp).proper

/-- Inclusion and intersection are those of the sets of points. The union is the least upper bound
of rectangles that are not empty on some axes only, and the laws of a union hold for all rectangles
without NaN edges, up to edges that count as equal; so a bound has no memory of the order in which
its entries came. -/
theorem predicates_by_points (d : Nat) :
    (∀ a b : Rectangle α, a.Proper d → b.Proper d →
      (a.includes b = true ↔ ∀ p, NumberPoint d p → b.contains p = true → a.contains p = true) ∧
      (a.intersects b = true ↔
        ∃ p, NumberPoint d p ∧ a.contains p = true ∧ b.contains p = true)) ∧
    (∀ a b : Rectangle α, a.Regular d → b.Regular d → IsJoin d a b (a.union b)) ∧
    (∀ a b c : Rectangle α, a.Proper d → b.Proper d → c.Proper d →
      (a.union b == b.union a) = true ∧ ((a.union b).union c == a.union (b.union c)) = true ∧
      (a.union a == a) = true ∧
      ((empty d).union a == a) = true ∧ (a.union (empty d) == a) = true) ∧
    (∀ (a : Rectangle α) (p : List α), a.insert p = a.union (ofPoint p)) ∧
    (∀ rs ss : List (Rectangle α), rs.Perm ss → (∀ r ∈ rs, r.Proper d) →
      (rs.foldl Rectangle.union (empty d) == ss.foldl Rectangle.union (empty d)) = true) ∧
    ∀ ps qs : List (List α), ps.Perm qs → (∀ p ∈ ps, NumberPoint d p) →
      (ps.foldl Rectangle.insert (empty d) == qs.foldl Rectangle.insert (empty d)) = true := by
  refine ⟨?_, ?_, ?_, insert_eq_union, ?_, ?_⟩
  · intro a b ha hb
    exact ⟨includes_iff_points ha hb, intersects_iff_point ha hb⟩
  · intro a b ha hb
    exact ha.isJoin_union hb
  · intro a b c ha hb hc
    exact ⟨union_comm ha hb, union_assoc ha hb hc, union_self ha, empty_union_beq ha,
      union_empty_beq ha⟩
  · intro rs ss hperm h
    exact foldl_union_perm hperm h
  · intro ps qs hperm h
    exact foldl_insert_perm hperm h

end Order

def strip : Rectangle Float := ⟨[⟨0, 1 / 0⟩, ⟨-0, 3⟩]⟩

/-- A rectangle that is empty on its second axis, though its edges lie between those of the
strip. -/
def hollow : Rectangle Float := ⟨[⟨1, 7⟩, ⟨2, 1⟩]⟩

/-- Axis by axis the strip meets the hollow rectangle, yet the two share no point, and the strip
includes the other for want of any. The sign of a zero edge does not tell two orders of joining
apart. -/
theorem predicates_by_points_hollow :
    (strip.includes hollow = true ∧
      ∀ p, NumberPoint 2 p → hollow.contains p = true → strip.contains p = true) ∧
    (List.zipWith Range.meets strip.ranges hollow.ranges = [true, true] ∧
      ¬ ∃ p, NumberPoint 2 p ∧ strip.contains p = true ∧ hollow.contains p = true) ∧
    IsJoin 2 strip (empty 2) (strip.union (empty 2)) ∧
    ([strip, hollow, ofPoint [0, 0]].foldl Rectangle.union (empty 2) ==
      [ofPoint [0, 0], strip, hollow].foldl Rectangle.union (empty 2)) = true := by
  have hedges : ∀ r ∈ [strip, hollow, ofPoint [0, 0]], r.dim = 2 ∧
      (∀ k < 2, isNumber (r.axis k).lo = true) ∧ ∀ k < 2, isNumber (r.axis k).hi = true := by
    decide +kernel
  have hproper : ∀ r ∈ [strip, hollow, ofPoint [0, 0]], r.Proper 2 := by
    intro r hr
    obtain ⟨hdim, hlo, hhi⟩ := hedges r hr
    exact ⟨hdim, hlo, hhi⟩
  have hstrip := hproper strip (by simp)
  obtain ⟨hsets, hjoin, -, -, hfold, -⟩ := predicates_by_points (α := Float) 2
  obtain ⟨hincludes, hintersects⟩ := hsets strip hollow hstrip (hproper hollow (by simp))
  have hfalse : strip.intersects hollow = false := by decide +kernel
  have htrue : strip.includes hollow = true := by decide +kernel
  refine ⟨⟨htrue, hincludes.mp htrue⟩, ⟨by decide +kernel, ?_⟩, ?_, ?_⟩
  · rw [← hintersects, hfalse]
    exact Bool.false_ne_true
  · exact hjoin strip (empty 2) ⟨hstrip, .inl (by decide +kernel)⟩ ⟨proper_empty 2, .inr rfl⟩
  · refine hfold _ _ ?_ hproper
    show ([strip, hollow] ++ [ofPoint [0, 0]]).Perm ([ofPoint [0, 0]] ++ [strip, hollow])
    exact List.perm_append_comm

end Rectangle

end RTree
