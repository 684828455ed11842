import RTree.Proofs.Rectangle.Hull
import RTree.Proofs.Scalar.Sized
import RTree.Proofs.Split.Seeds

namespace RTree

open OrderedScalar SizedScalar
open Scalar (isNumber)

variable {α : Type} [Scalar α]

namespace Cluster

def Spans (rects : List (Rectangle α)) (g : Cluster α) : Prop :=
  ∃ seed joined, g.entries.map (rects[·]?) = (seed :: joined).map some ∧
    g.bound = joined.foldl Rectangle.union seed

/-- How unequal the growth of two groups by a rectangle is. -/
def contrast (g h : Cluster α) (r : Rectangle α) : α :=
  Scalar.abs (g.bound.enlargement r - h.bound.enlargement r)

/-- The group `g` is to have the rectangle rather than `h`: it grows less by it, or as much and has
less volume, or has as much volume too and the lengths speak for it. -/
def Draws (g h : Cluster α) (r : Rectangle α) (byLength : Prop) : Prop :=
  g.bound.enlargement r < h.bound.enlargement r ∨
    (g.bound.enlargement r == h.bound.enlargement r) = true ∧
      (g.bound.volume < h.bound.volume ∨
        (g.bound.volume == h.bound.volume) = true ∧ byLength)

end Cluster

/-- The state between two entries: each bound is the union of its group, and all entries are in
one of the groups or wait with their own rectangle. -/
structure Underway (rects : List (Rectangle α)) (first second : Cluster α)
    (waiting : List (Nat × Rectangle α)) : Prop where
  first_spans : first.Spans rects
  second_spans : second.Spans rects
  own_rectangle : ∀ e ∈ waiting, rects[e.1]? = some e.2
  all_entries : (first.entries ++ second.entries ++ waiting.map Prod.fst).Perm
    (List.range rects.length)

/-- The entry that comes next: it waits in this place, the groups are most unequal about it, and
neither group needs all that wait. -/
structure ComesNext (minimum : Nat) (first second : Cluster α) (waiting : List (Nat × Rectangle α))
    (place : Nat) (entry : Nat × Rectangle α) : Prop where
  waits : waiting[place]? = some entry
  most : ∀ other ∈ waiting, isNumber (first.contrast second other.2) = true →
    first.contrast second other.2 ≤ first.contrast second entry.2
  first_has_enough : minimum < first.entries.length + waiting.length
  second_has_enough : minimum < second.entries.length + waiting.length

/-- A run of the rules from two groups and the entries that wait to the groups in the end. Which
group draws an entry is only said where the difference of the two growths is a number. -/
inductive Distribution (rects : List (Rectangle α)) (minimum : Nat) :
    Cluster α → Cluster α → List (Nat × Rectangle α) → List Nat × List Nat → Prop
  | complete {first second : Cluster α} (state : Underway rects first second []) :
    Distribution rects minimum first second [] (first.entries, second.entries)
  | fillFirst {first second : Cluster α} {waiting : List (Nat × Rectangle α)}
    (state : Underway rects first second waiting) (some_wait : waiting ≠ [])
    (needs_all : first.entries.length + waiting.length ≤ minimum) :
    Distribution rects minimum first second waiting
      (first.entries ++ waiting.map Prod.fst, second.entries)
  | fillSecond {first second : Cluster α} {waiting : List (Nat × Rectangle α)}
    (state : Underway rects first second waiting) (some_wait : waiting ≠ [])
    (first_has_enough : minimum < first.entries.length + waiting.length)
    (needs_all : second.entries.length + waiting.length ≤ minimum) :
    Distribution rects minimum first second waiting
      (first.entries, second.entries ++ waiting.map Prod.fst)
  | joinFirst {first second : Cluster α} {waiting : List (Nat × Rectangle α)} {place : Nat}
    {entry : Nat × Rectangle α} {result : List Nat × List Nat}
    (state : Underway rects first second waiting)
    (next : ComesNext minimum first second waiting place entry)
    (drawn : isNumber (first.contrast second entry.2) = true →
      first.Draws second entry.2 (first.entries.length ≤ second.entries.length))
    (rest : Distribution rects minimum (first.add entry) second (waiting.eraseIdx place) result) :
    Distribution rects minimum first second waiting result
  | joinSecond {first second : Cluster α} {waiting : List (Nat × Rectangle α)} {place : Nat}
    {entry : Nat × Rectangle α} {result : List Nat × List Nat}
    (state : Underway rects first second waiting)
    (next : ComesNext minimum first second waiting place entry)
    (drawn : isNumber (first.contrast second entry.2) = true →
      second.Draws first entry.2 (second.entries.length < first.entries.length))
    (rest : Distribution rects minimum first (second.add entry) (waiting.eraseIdx place) result) :
    Distribution rects minimum first second waiting result

section Steps

variable {rects : List (Rectangle α)} {first second g h : Cluster α}
  {waiting : List (Nat × Rectangle α)} {place : Nat} {entry : Nat × Rectangle α} {r : Rectangle α}

theorem Cluster.Spans.add (hg : g.Spans rects) (he : rects[entry.1]? = some entry.2) :
    (g.add entry).Spans rects := by
  obtain ⟨seed, joined, hentries, hbound⟩ := hg
  refine ⟨seed, joined ++ [entry.2], ?_, ?_⟩
  · simp [Cluster.add, hentries, he]
  · rw [List.foldl_append, ← hbound]
    rfl

namespace Underway

omit [Scalar α] in
theorem perm_eraseIdx (hp : waiting[place]? = some entry) :
    (entry.1 :: (waiting.eraseIdx place).map Prod.fst).Perm (waiting.map Prod.fst) := by
  obtain ⟨hlt, rfl⟩ := List.getElem?_eq_some_iff.mp hp
  exact (List.getElem_cons_eraseIdx_perm hlt).map Prod.fst

theorem joinFirst (hs : Underway rects first second waiting) (hp : waiting[place]? = some entry) :
    Underway rects (first.add entry) second (waiting.eraseIdx place) where
  first_spans := hs.first_spans.add (hs.own_rectangle entry (List.mem_of_getElem? hp))
  second_spans := hs.second_spans
  own_rectangle e he := hs.own_rectangle e (List.mem_of_mem_eraseIdx he)
  all_entries := by
    refine .trans ?_ hs.all_entries
    simp only [Cluster.add, List.append_assoc, List.singleton_append]
    exact (List.perm_middle.symm.trans ((perm_eraseIdx hp).append_left _)).append_left _

theorem joinSecond (hs : Underway rects first second waiting) (hp : waiting[place]? = some entry) :
    Underway rects first (second.add entry) (waiting.eraseIdx place) where
  first_spans := hs.first_spans
  second_spans := hs.second_spans.add (hs.own_rectangle entry (List.mem_of_getElem? hp))
  own_rectangle e he := hs.own_rectangle e (List.mem_of_mem_eraseIdx he)
  all_entries := by
    refine .trans ?_ hs.all_entries
    simp only [Cluster.add, List.append_assoc, List.singleton_append]
    exact ((perm_eraseIdx hp).append_left _).append_left _

end Underway

/-- What holds the place of the next entry as long as no difference is a number. -/
def Preference.unknown : Preference α := ⟨0, (Scalar.zero, Scalar.zero), Scalar.bottom⟩

def Preference.of (first second : Cluster α) (e : (Nat × Rectangle α) × Nat) : Preference α :=
  ⟨e.2, (first.bound.enlargement e.1.2, second.bound.enlargement e.1.2),
    first.contrast second e.1.2⟩

def Preference.isStronger (p q : Preference α) : Bool := decide (q.difference < p.difference)

theorem nextEntry_eq (first second : Cluster α) (waiting : List (Nat × Rectangle α)) :
    nextEntry first second waiting = champion Preference.isStronger .unknown
      (waiting.zipIdx.map (Preference.of first second)) := rfl

variable [SizedScalar α]

theorem Preference.strictOrder_isStronger : StrictOrder (isStronger (α := α)) :=
  (Scalar.strictOrder_lt.comap difference).flip

/-- No entry has a stronger preference than the one that comes next. -/
theorem not_lt_contrast (first second : Cluster α) (waiting : List (Nat × Rectangle α)) :
    ∀ other ∈ waiting,
      ¬ (nextEntry first second waiting).difference < first.contrast second other.2 := by
  intro other hother
  obtain ⟨k, hk⟩ := List.getElem?_of_mem hother
  have hmem := List.mem_map_of_mem (f := Preference.of first second)
    (List.mk_mem_zipIdx_iff_getElem?.mpr hk)
  have hbest := Preference.strictOrder_isStronger.not_better_champion .unknown _ _
    (List.mem_cons_of_mem _ hmem)
  exact of_decide_eq_false hbest

/-- Either nothing is known of any preference, or the next entry comes with its own. -/
theorem nextEntry_cases (first second : Cluster α) (waiting : List (Nat × Rectangle α)) :
    nextEntry first second waiting = .unknown ∨
      ∃ entry place, waiting[place]? = some entry ∧
        nextEntry first second waiting = .of first second (entry, place) ∧
        isNumber (first.contrast second entry.2) = true := by
  have hstrict := Preference.strictOrder_isStronger (α := α)
  rw [nextEntry_eq]
  rcases hstrict.champion_eq_or_better .unknown
    (waiting.zipIdx.map (Preference.of first second)) with heq | hstronger
  · exact .inl heq
  · right
    rcases List.mem_cons.mp (champion_mem Preference.isStronger .unknown
      (waiting.zipIdx.map (Preference.of first second))) with heq | hmem
    · rw [heq, hstrict.irrefl] at hstronger
      cases hstronger
    · obtain ⟨⟨entry, place⟩, hplace, heq⟩ := List.mem_map.mp hmem
      rw [← heq] at hstronger ⊢
      have hlt : Scalar.bottom < first.contrast second entry.2 := of_decide_eq_true hstronger
      exact ⟨entry, place, List.mk_mem_zipIdx_iff_getElem?.mp hplace, rfl, (lt_iff.mp hlt).2.1⟩

/-- The entry chosen is one that the groups are most unequal about, and comes with its own growth
unless all comparisons fail. -/
theorem exists_nextEntry (hw : waiting ≠ []) :
    ∃ entry, waiting[(nextEntry first second waiting).place]? = some entry ∧
      (∀ other ∈ waiting, isNumber (first.contrast second other.2) = true →
        first.contrast second other.2 ≤ first.contrast second entry.2) ∧
      (isNumber (first.contrast second entry.2) = true →
        (nextEntry first second waiting).growth =
          (first.bound.enlargement entry.2, second.bound.enlargement entry.2)) := by
  have hothers := not_lt_contrast first second waiting
  rcases nextEntry_cases first second waiting with heq | ⟨entry, place, hplace, heq, hn⟩
  · -- every difference that is a number is above the bottom, so that there is none
    rw [heq] at hothers ⊢
    have hnone : ∀ other ∈ waiting, isNumber (first.contrast second other.2) ≠ true :=
      fun other hother hn => hothers other hother (bottom_lt_abs hn)
    obtain ⟨entry, others, rfl⟩ := List.exists_cons_of_ne_nil hw
    exact ⟨entry, rfl, fun other hother hn => absurd hn (hnone other hother),
      fun hn => absurd hn (hnone entry List.mem_cons_self)⟩
  · rw [heq] at hothers ⊢
    exact ⟨entry, hplace, fun other hother hother' =>
      Scalar.le_of_not_lt hother' hn (hothers other hother), fun _ => rfl⟩

/-- Where the growths can be compared, so can the volumes. -/
theorem Cluster.isNumber_of_contrast (hn : isNumber (g.contrast h r) = true) :
    (isNumber (g.bound.enlargement r) = true ∧ isNumber (h.bound.enlargement r) = true) ∧
      isNumber g.bound.volume = true ∧ isNumber h.bound.volume = true := by
  obtain ⟨hg, hh⟩ := isNumber_of_sub (isNumber_of_abs hn)
  exact ⟨⟨hg, hh⟩, (isNumber_of_sub hg).2, (isNumber_of_sub hh).2⟩

/-- The entry goes to the group that is to have it. -/
theorem Cluster.draws_of_goesFirst (hn : isNumber (first.contrast second r) = true) :
    if goesFirst first second (first.bound.enlargement r, second.bound.enlargement r) then
      first.Draws second r (first.entries.length ≤ second.entries.length)
    else second.Draws first r (second.entries.length < first.entries.length) := by
  obtain ⟨⟨hgrowth, hgrowth'⟩, hvolume, hvolume'⟩ := Cluster.isNumber_of_contrast hn
  unfold goesFirst Cluster.Draws
  rcases Scalar.lt_or_beq_or_lt hgrowth hgrowth' with hless | hsame | hmore
  · simp [hless]
  · have hsame' := Scalar.beq_symm hsame
    have hnot := Scalar.not_lt_of_beq hsame
    have hnot' := Scalar.not_lt_of_beq hsame'
    rcases Scalar.lt_or_beq_or_lt hvolume hvolume' with hsmaller | hequal | hlarger
    · simp [hnot, hnot', hsame, hsmaller, Scalar.beq_eq_false_of_lt hsmaller]
    · have hequal' := Scalar.beq_symm hequal
      rcases Nat.lt_or_ge second.entries.length first.entries.length with hlong | hshort
      · simp [hnot, hnot', hsame', hequal, hequal', hlong, Nat.not_le.mpr hlong]
      · simp [hnot, hnot', hsame, hequal, hshort]
    · have hunequal : ¬ (first.bound.volume == second.bound.volume) = true := fun h =>
        Scalar.not_lt_of_beq (Scalar.beq_symm h) hlarger
      simp [hnot, hnot', hsame', hunequal, hlarger, Scalar.not_lt_of_lt hlarger]
  · simp [hmore, Scalar.not_lt_of_lt hmore]

end Steps

section Run

variable {rects : List (Rectangle α)} {minimum fuel : Nat} {first second : Cluster α}
  {waiting : List (Nat × Rectangle α)} {result : List Nat × List Nat}

/-- Handing out follows the rules to the end. -/
theorem Underway.distribution [SizedScalar α] (hs : Underway rects first second waiting)
    (hf : waiting.length ≤ fuel) :
    Distribution rects minimum first second waiting
      (distribute minimum fuel first second waiting) := by
  induction fuel generalizing first second waiting with
  | zero =>
    obtain rfl : waiting = [] := List.eq_nil_of_length_eq_zero (Nat.le_zero.mp hf)
    exact .complete hs
  | succ fuel ih =>
    unfold distribute
    split
    · rename_i hempty
      obtain rfl : waiting = [] := List.isEmpty_iff.mp hempty
      exact .complete hs
    · rename_i hempty
      have hw : waiting ≠ [] := fun h => hempty (List.isEmpty_iff.mpr h)
      split
      · rename_i hneeds
        exact .fillFirst hs hw hneeds
      · rename_i hfirst
        split
        · rename_i hneeds
          exact .fillSecond hs hw (Nat.lt_of_not_le hfirst) hneeds
        · rename_i hsecond
          obtain ⟨entry, hplace, hmost, hgrowth⟩ := exists_nextEntry hw
          have hnext : ComesNext minimum first second waiting _ entry :=
            ⟨hplace, hmost, Nat.lt_of_not_le hfirst, Nat.lt_of_not_le hsecond⟩
          have hrest : (waiting.eraseIdx (nextEntry first second waiting).place).length ≤ fuel := by
            rw [List.length_eraseIdx_of_lt (List.getElem?_eq_some_iff.mp hplace).1]
            omega
          dsimp only
          rw [hplace]
          dsimp only
          split
          · rename_i hgo
            refine .joinFirst hs hnext (fun hn => ?_) (ih (hs.joinFirst hplace) hrest)
            rw [hgrowth hn] at hgo
            simpa [hgo] using Cluster.draws_of_goesFirst hn
          · rename_i hgo
            refine .joinSecond hs hnext (fun hn => ?_) (ih (hs.joinSecond hplace) hrest)
            rw [hgrowth hn] at hgo
            simpa [hgo] using Cluster.draws_of_goesFirst hn

namespace Distribution

/-- The groups keep what they have. -/
theorem isPrefix (h : Distribution rects minimum first second waiting result) :
    first.entries <+: result.1 ∧ second.entries <+: result.2 := by
  induction h with
  | complete => exact ⟨List.prefix_rfl, List.prefix_rfl⟩
  | fillFirst => exact ⟨List.prefix_append _ _, List.prefix_rfl⟩
  | fillSecond => exact ⟨List.prefix_rfl, List.prefix_append _ _⟩
  | joinFirst _ _ _ _ ih => exact ⟨(List.prefix_append _ _).trans ih.1, ih.2⟩
  | joinSecond _ _ _ _ ih => exact ⟨ih.1, (List.prefix_append _ _).trans ih.2⟩

/-- In the end each entry is in one group. -/
theorem perm (h : Distribution rects minimum first second waiting result) :
    (result.1 ++ result.2).Perm (List.range rects.length) := by
  induction h with
  | complete state => simpa using state.all_entries
  | fillFirst state =>
    refine .trans ?_ state.all_entries
    rw [List.append_assoc, List.append_assoc]
    exact List.perm_append_comm.append_left _
  | fillSecond state =>
    rw [← List.append_assoc]
    exact state.all_entries
  | joinFirst _ _ _ _ ih => exact ih
  | joinSecond _ _ _ _ ih => exact ih

theorem disjoint (h : Distribution rects minimum first second waiting result) :
    result.1.Disjoint result.2 :=
  List.disjoint_of_nodup_append (h.perm.nodup_iff.mpr List.nodup_range)

end Distribution

end Run

section Split

variable {rects : List (Rectangle α)} {i j : Nat} {r s t : Rectangle α}

/-- Two rectangles that count as equal to a third count as equal. -/
theorem Rectangle.beq_of_beq [OrderedScalar α] (hr : (r == t) = true) (hs : (s == t) = true) :
    (r == s) = true := by
  have hrt : List.Forall₂ _ r.ranges t.ranges := forall₂_of_beq hr
  have hst : List.Forall₂ _ s.ranges t.ranges := forall₂_of_beq hs
  refine ranges_beq (hrt.length_eq.trans hst.length_eq.symm) fun k hk hk' => ?_
  have hkt : k < t.ranges.length := hrt.length_eq ▸ hk
  obtain ⟨hlo, hhi⟩ := Range.beq_iff.mp (hrt.get hk hkt)
  obtain ⟨hlo', hhi'⟩ := Range.beq_iff.mp (hst.get hk' hkt)
  exact Range.beq_iff.mpr ⟨Scalar.beq_trans hlo (Scalar.beq_symm hlo'),
    Scalar.beq_trans hhi (Scalar.beq_symm hhi')⟩

/-- With a seed in each group and all others waiting, the rules can be followed. -/
theorem SeedChoice.underway (h : SeedChoice rects i j r s) :
    Underway rects ⟨[i], r⟩ ⟨[j], s⟩ (othersThan rects i j) where
  first_spans := ⟨r, [], by simp [h.first], rfl⟩
  second_spans := ⟨s, [], by simp [h.second], rfl⟩
  own_rectangle e he := mem_placed.mp (List.mem_filter.mp he).1
  all_entries := by
    rw [map_fst_othersThan]
    exact seeds_perm h.lt (List.getElem?_eq_some_iff.mp h.second).1

/-- Entries that differ are handed out, from the best seeds on. -/
theorem Partition.quadratic_eq (htwo : 2 ≤ rects.length)
    (hdiffer : ∀ t ∈ rects, rects.all (· == t) = false)
    (h : SeedChoice rects (bestSeeds rects).first (bestSeeds rects).second r s) (minimum : Nat) :
    Partition.quadratic rects minimum =
      let others := othersThan rects (bestSeeds rects).first (bestSeeds rects).second
      let groups := distribute minimum others.length ⟨[(bestSeeds rects).first], r⟩
        ⟨[(bestSeeds rects).second], s⟩ others
      { first := groups.1, second := groups.2, kind := .quadratic } := by
  match rects, htwo with
  | t :: u :: rest, _ =>
    unfold Partition.quadratic
    dsimp only
    rw [hdiffer t List.mem_cons_self, if_neg Bool.false_ne_true]
    simp only [List.getD_eq_getElem?_getD, h.first, h.second, Option.getD_some]
    rfl

/-- Of entries that are not all the same, the first of those that waste most start the groups, and
the others are handed out by the rules; so the seeds stay apart. -/
theorem Partition.quadratic_by_rules [SizedScalar α] (htwo : 2 ≤ rects.length)
    (hdiffer : ∃ r ∈ rects, ∃ s ∈ rects, (r == s) = false)
    (hscores : rects.Pairwise Rectangle.Comparable) (minimum : Nat) :
    ∃ i j r s, ((bestSeeds rects).first = i ∧ (bestSeeds rects).second = j) ∧
      SeedChoice rects i j r s ∧
      ∃ first second, Distribution rects minimum ⟨[i], r⟩ ⟨[j], s⟩ (othersThan rects i j)
          (first, second) ∧
        Partition.quadratic rects minimum = { first, second, kind := .quadratic } ∧
        (i ∈ first ∧ i ∉ second) ∧ j ∈ second ∧ j ∉ first := by
  obtain ⟨r, s, hseeds⟩ := exists_seedChoice htwo hscores
  have hnone : ∀ t ∈ rects, rects.all (· == t) = false := by
    intro t _
    obtain ⟨u, hu, v, hv, huv⟩ := hdiffer
    rw [← Bool.not_eq_true, List.all_eq_true]
    intro hall
    rw [Rectangle.beq_of_beq (hall u hu) (hall v hv)] at huv
    cases huv
  have hrun : Distribution rects minimum _ _ _ _ := hseeds.underway.distribution (Nat.le_refl _)
  obtain ⟨hfirst, hsecond⟩ := hrun.isPrefix
  have hi := hfirst.subset List.mem_cons_self
  have hj := hsecond.subset List.mem_cons_self
  exact ⟨_, _, r, s, ⟨rfl, rfl⟩, hseeds, _, _, hrun,
    Partition.quadratic_eq htwo hnone hseeds minimum, ⟨hi, fun hi' => hrun.disjoint hi hi'⟩,
    hj, fun hj' => hrun.disjoint hj' hj⟩

/-- Three points near one corner and two near the other. -/
def clumps : List (Rectangle Float) :=
  [[0, 0], [1, 0], [9, 9], [2, 0], [10, 10]].map Rectangle.ofPoint

/-- The points in the far corners start the groups, and each of the others joins the near one. -/
theorem Partition.quadratic_by_rules_clumps :
    ∃ r s, SeedChoice clumps 0 4 r s ∧
      Distribution clumps 2 ⟨[0], r⟩ ⟨[4], s⟩ (othersThan clumps 0 4) ([0, 1, 3], [4, 2]) ∧
      (Partition.quadratic clumps 2).first = [0, 1, 3] ∧
      (Partition.quadratic clumps 2).second = [4, 2] := by
  have hdiffer : ∃ r ∈ clumps, ∃ s ∈ clumps, (r == s) = false :=
    ⟨_, List.mem_cons_self, _, List.mem_cons_of_mem _ List.mem_cons_self, by decide +kernel⟩
  have htwo : 2 ≤ clumps.length := by decide
  obtain ⟨i, j, r, s, ⟨hi, hj⟩, hseeds, first, second, hrun, heq, -⟩ :=
    Partition.quadratic_by_rules htwo hdiffer (by decide +kernel) 2
  obtain rfl : 0 = i := (show (bestSeeds clumps).first = 0 by decide +kernel).symm.trans hi
  obtain rfl : 4 = j := (show (bestSeeds clumps).second = 4 by decide +kernel).symm.trans hj
  have hfirst : (Partition.quadratic clumps 2).first = [0, 1, 3] := by decide +kernel
  have hsecond : (Partition.quadratic clumps 2).second = [4, 2] := by decide +kernel
  obtain rfl : first = [0, 1, 3] := by rw [← hfirst, heq]
  obtain rfl : second = [4, 2] := by rw [← hsecond, heq]
  exact ⟨r, s, hseeds, hrun, hfirst, hsecond⟩

end Split

end RTree
