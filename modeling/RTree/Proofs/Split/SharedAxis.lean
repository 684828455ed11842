import RTree.Proofs.Champion
import RTree.Split.Overlap
import Mathlib.Data.Nat.Basic

namespace RTree

variable {dimension median upper : Nat} {histories histories' : List SplitHistory}

/-- The value in the middle of the sorted values; the greater one where there are two. -/
def UpperMedian (values : List Nat) (median : Nat) : Prop :=
  ∃ sorted : List Nat, sorted.Perm values ∧ sorted.Pairwise (· ≤ ·) ∧
    sorted[values.length / 2]? = some median

theorem UpperMedian.unique {values values' : List Nat} {median' : Nat}
    (h : UpperMedian values median) (h' : UpperMedian values' median')
    (hperm : values.Perm values') : median = median' := by
  obtain ⟨sorted, hsame, hsorted, hget⟩ := h
  obtain ⟨sorted', hsame', hsorted', hget'⟩ := h'
  have heq : sorted = sorted' := List.Perm.eq_of_pairwise (fun _ _ _ _ => Nat.le_antisymm) hsorted
    hsorted' (hsame.trans (hperm.trans hsame'.symm))
  rw [heq, hperm.length_eq, hget'] at hget
  exact (Option.some.inj hget).symm

/-- Sorted lists of the same values are the same. -/
theorem stableSort_lt_eq_of_perm {values values' : List Nat} (hperm : values.Perm values') :
    stableSort (fun a b => decide (a < b)) values =
      stableSort (fun a b => decide (a < b)) values' :=
  List.Perm.eq_of_pairwise (fun _ _ _ _ => Nat.le_antisymm)
    (stableSort_pairwise_key (fun n => n) values) (stableSort_pairwise_key (fun n => n) values')
    ((stableSort_perm _ _).trans (hperm.trans (stableSort_perm _ _).symm))

theorem upperMedian_stableSort {values : List Nat} (h : values ≠ []) :
    UpperMedian values
      ((stableSort (fun a b => decide (a < b)) values).getD (values.length / 2) 0) := by
  have hmid : values.length / 2 < (stableSort (fun a b => decide (a < b)) values).length := by
    have hpos := List.length_pos_iff.mpr h
    rw [length_stableSort]
    omega
  refine ⟨_, stableSort_perm _ values, stableSort_pairwise_key (fun n => n) values, ?_⟩
  simp [List.getD_eq_getElem?_getD, List.getElem?_eq_getElem hmid]

/-- The axes are asked by their distance from the median, counted upwards and around. -/
theorem axesAfter_eq (h : median < dimension) : axesAfter median dimension =
    (List.range' 1 dimension).map fun turns => (median + turns) % dimension := by
  apply List.ext_getElem
  · simp [axesAfter]
    omega
  · intro i hi _
    simp only [axesAfter, List.length_append, List.length_range', List.length_range] at hi
    by_cases hup : i < dimension - (median + 1)
    · have hmod : (median + (1 + i)) % dimension = median + 1 + i := by
        rw [Nat.mod_eq_of_lt (by omega)]
        omega
      simp [axesAfter, List.getElem_append_left, hup, hmod]
    · have haround : median + (1 + i) = i - (dimension - (median + 1)) + dimension := by omega
      have hmod : (median + (1 + i)) % dimension = i - (dimension - (median + 1)) := by
        rw [haround, Nat.add_mod_right, Nat.mod_eq_of_lt (by omega)]
      have hle : (List.range' (median + 1) (dimension - (median + 1))).length ≤ i := by
        rw [List.length_range']
        omega
      simp [axesAfter, List.getElem_append_right hle, hmod]

/-- Going around comes to every axis. -/
theorem exists_turns (h : median < dimension) {axis : Nat} (haxis : axis < dimension) :
    ∃ turns, 1 ≤ turns ∧ turns ≤ dimension ∧ axis = (median + turns) % dimension := by
  by_cases hup : median < axis
  · refine ⟨axis - median, by omega, by omega, ?_⟩
    rw [Nat.add_sub_cancel' (Nat.le_of_lt hup), Nat.mod_eq_of_lt haxis]
  · refine ⟨dimension + axis - median, by omega, by omega, ?_⟩
    rw [Nat.add_sub_cancel' (by omega), Nat.add_mod_left, Nat.mod_eq_of_lt haxis]

/-- How many of the children were split along the axis that is `turns` after the median. -/
def usersAfter (dimension median : Nat) (histories : List SplitHistory) (turns : Nat) : Nat :=
  histories.countP (·.uses ((median + turns) % dimension))

/-- The search by the turns it takes: to the first axis that all use, else to the first of those
that the fewest use. -/
theorem exists_sharedAxis_eq (hd : 0 < dimension) (hne : histories ≠ [])
    (hupper : UpperMedian (histories.map SplitHistory.last) upper)
    (hmedian : median = min upper (dimension - 1)) :
    ∃ turns, sharedAxis dimension histories = (median + turns) % dimension ∧
      ((List.range' 1 dimension).find?
          (usersAfter dimension median histories · == histories.length) = some turns ∨
        (∀ k ∈ List.range' 1 dimension,
          usersAfter dimension median histories k ≠ histories.length) ∧
        Foremost (fun j k => decide (usersAfter dimension median histories j <
          usersAfter dimension median histories k)) (List.range' 1 dimension) turns) := by
  have hmap : histories.map SplitHistory.last ≠ [] := by simpa using hne
  have hmid := (upperMedian_stableSort hmap).unique hupper (.refl _)
  have hlt : median < dimension := by omega
  rw [List.length_map] at hmid
  rw [sharedAxis, if_neg (by simpa using ⟨hne, Nat.ne_of_gt hd⟩)]
  simp only [length_stableSort, List.length_map, hmid, ← hmedian, axesAfter_eq hlt, List.find?_map]
  let users := usersAfter dimension median histories
  have hasked : ((fun axis => histories.countP (·.uses axis) == histories.length) ∘
      fun turns => (median + turns) % dimension) = (users · == histories.length) := rfl
  have hchampion := champion?_map
    (fun a b => decide (histories.countP (·.uses a) < histories.countP (·.uses b)))
    (fun turns => (median + turns) % dimension) (List.range' 1 dimension)
  rw [hasked, hchampion]
  cases hfound : (List.range' 1 dimension).find? (users · == histories.length) with
  | some turns => exact ⟨turns, rfl, .inl rfl⟩
  | none =>
    have hrange : List.range' 1 dimension ≠ [] := by simpa using Nat.ne_of_gt hd
    obtain ⟨turns, -, hbest⟩ := exists_champion? (fun j k => decide (users j < users k)) hrange
    have hnone := List.find?_eq_none.mp hfound
    refine ⟨turns, ?_, .inr ⟨by simpa using hnone, ?_⟩⟩
    · change ((champion? (fun j k => decide (users j < users k)) _).map _).getD median = _
      rw [hbest]
      rfl
    · exact ((StrictOrder.of_key users).champion?_eq_some_iff (graded_of_key users _)).mp hbest

/-- The axis that is `turns` after the median, and why it is chosen: it is the first that all
children were split along, if there is any, else the first that the fewest were split along. -/
structure ReachedFirst (dimension : Nat) (histories : List SplitHistory) (median turns : Nat)
    (axis : Nat) : Prop where
  one_le : 1 ≤ turns
  turns_le : turns ≤ dimension
  axis_eq : axis = (median + turns) % dimension
  axis_lt : axis < dimension
  shared : (∃ common < dimension, ∀ h ∈ histories, h.uses common = true) →
    (∀ h ∈ histories, h.uses axis = true) ∧
      ∀ earlier, 1 ≤ earlier → earlier < turns →
        ∃ h ∈ histories, h.uses ((median + earlier) % dimension) = false
  fewest : (∀ other < dimension, ∃ h ∈ histories, h.uses other = false) →
    (∀ other < dimension, histories.countP (·.uses axis) ≤ histories.countP (·.uses other)) ∧
      ∀ earlier, 1 ≤ earlier → earlier < turns →
        histories.countP (·.uses axis) < histories.countP (·.uses ((median + earlier) % dimension))

theorem exists_reachedFirst (hd : 0 < dimension) (hne : histories ≠ [])
    (hupper : UpperMedian (histories.map SplitHistory.last) upper) :
    ∃ turns, ReachedFirst dimension histories (min upper (dimension - 1)) turns
      (sharedAxis dimension histories) := by
  obtain ⟨median, hmedian⟩ : ∃ median, median = min upper (dimension - 1) := ⟨_, rfl⟩
  have hlt : median < dimension := by omega
  obtain ⟨turns, heq, hturns⟩ := exists_sharedAxis_eq hd hne hupper hmedian
  have hall : ∀ k, usersAfter dimension median histories k = histories.length ↔
      ∀ h ∈ histories, h.uses ((median + k) % dimension) = true :=
    fun k => List.countP_eq_length
  have hbelow : (median + turns) % dimension < dimension := Nat.mod_lt _ hd
  rw [← hmedian, heq]
  rcases hturns with hfound | ⟨hnone, hfirst⟩
  · obtain ⟨hshared, hmem, hfirst⟩ := List.find?_range'_eq_some.mp hfound
    rw [List.mem_range'_1] at hmem
    rw [beq_iff_eq, hall] at hshared
    refine ⟨turns, hmem.1, by omega, rfl, hbelow, fun _ => ⟨hshared, ?_⟩, fun hunused => ?_⟩
    · intro earlier hpos hearlier
      have hnot := hfirst earlier hpos hearlier
      rw [Bool.not_eq_true', beq_eq_false_iff_ne, ne_eq, hall] at hnot
      simpa using hnot
    · obtain ⟨h, hh, hunused⟩ := hunused _ hbelow
      rw [hshared h hh] at hunused
      cases hunused
  · obtain ⟨n, hn, hleast⟩ := hfirst.exists_place (.of_key _)
    obtain ⟨hdim, rfl⟩ : n < dimension ∧ 1 + n = turns := by
      simpa [List.getElem?_eq_some_iff] using hn
    have hat : ∀ k, k < dimension → (List.range' 1 dimension)[k]? = some (1 + k) := by
      simp +contextual
    refine ⟨1 + n, by omega, by omega, rfl, hbelow, ?_, fun _ => ⟨?_, ?_⟩⟩
    · rintro ⟨common, hcommon, hused⟩
      obtain ⟨k, hpos, hle, rfl⟩ := exists_turns hlt hcommon
      exact absurd ((hall k).mpr hused) (hnone k (List.mem_range'_1.mpr (by omega)))
    · intro other hother
      obtain ⟨k, hpos, hle, rfl⟩ := exists_turns hlt hother
      have hnot := (hleast (k - 1) k (by rw [hat _ (by omega)]; congr; omega)).1
      exact Nat.le_of_not_lt (of_decide_eq_false hnot)
    · intro earlier hpos hearlier
      have hless := (hleast (earlier - 1) earlier (by rw [hat _ (by omega)]; congr; omega)).2
      exact of_decide_eq_true (hless (by omega))

theorem sharedAxis_lt (hd : 0 < dimension) (histories : List SplitHistory) :
    sharedAxis dimension histories < dimension := by
  by_cases hne : histories = []
  · rw [hne]
    exact hd
  · have hmap : histories.map SplitHistory.last ≠ [] := by simpa using hne
    obtain ⟨turns, hreached⟩ := exists_reachedFirst hd hne (upperMedian_stableSort hmap)
    exact hreached.axis_lt

/-- The order of the children makes no difference. -/
theorem sharedAxis_perm (hperm : histories.Perm histories') :
    sharedAxis dimension histories = sharedAxis dimension histories' := by
  have hsorted := stableSort_lt_eq_of_perm (hperm.map SplitHistory.last)
  have hcount : ∀ axis, histories.countP (·.uses axis) = histories'.countP (·.uses axis) :=
    fun axis => hperm.countP_eq _
  simp only [sharedAxis, hsorted, hcount, hperm.length_eq, hperm.isEmpty_eq]

/-- The search goes around once from the upper median of the last axes, which counts as the last
axis of all when it lies outside. It ends at the first axis shared by all children, else at the
first that the fewest use, in whatever order the children are. -/
theorem sharedAxis_reached_first (dimension : Nat) (histories : List SplitHistory)
    (hd : 0 < dimension) (hne : histories ≠ []) :
    (∃ upper turns, UpperMedian (histories.map SplitHistory.last) upper ∧
      ReachedFirst dimension histories (min upper (dimension - 1)) turns
        (sharedAxis dimension histories)) ∧
    ∀ histories', histories.Perm histories' →
      sharedAxis dimension histories' = sharedAxis dimension histories := by
  refine ⟨?_, fun histories' hperm => (sharedAxis_perm hperm).symm⟩
  have hmap : histories.map SplitHistory.last ≠ [] := by simpa using hne
  have hupper := upperMedian_stableSort hmap
  obtain ⟨turns, hreached⟩ := exists_reachedFirst hd hne hupper
  exact ⟨_, turns, hupper, hreached⟩

/-- Three children that share axis 1, two of which were split last along axes that are not there. -/
def strayed : List SplitHistory :=
  [⟨[true, true, false], 7⟩, ⟨[false, true, true], 2⟩, ⟨[false, true, false], 9⟩]

/-- Two children that share no axis; none was split along axis 2. -/
def parted : List SplitHistory := [⟨[false, true, false], 1⟩, ⟨[true, false, false], 0⟩]

/-- The search starts after the last axis: it asks 0, which is not shared, and stops at 1. Where no
axis is shared it stops at the first one, which neither uses. -/
theorem sharedAxis_reached_first_strayed :
    ReachedFirst 3 strayed 2 2 1 ∧ ReachedFirst 3 parted 1 1 2 ∧
      sharedAxis 3 strayed.reverse = 1 := by
  obtain ⟨⟨upper, turns, hupper, hreached⟩, hperm⟩ :=
    sharedAxis_reached_first 3 strayed (by decide) (by decide)
  obtain ⟨⟨upper', turns', hupper', hreached'⟩, -⟩ :=
    sharedAxis_reached_first 3 parted (by decide) (by decide)
  obtain rfl : upper = 7 := hupper.unique ⟨[2, 7, 9], by decide, by decide, rfl⟩ (.refl _)
  obtain rfl : upper' = 1 := hupper'.unique ⟨[0, 1], by decide, by decide, rfl⟩ (.refl _)
  have hshared : sharedAxis 3 strayed = 1 := by decide
  have hfewest : sharedAxis 3 parted = 2 := by decide
  rw [hshared] at hreached
  rw [hfewest] at hreached'
  have hstop := hreached.axis_eq
  have hstop' := hreached'.axis_eq
  obtain rfl : turns = 2 := by
    have hone := hreached.one_le
    have hmost := hreached.turns_le
    omega
  obtain rfl : turns' = 1 := by
    have hone := hreached'.one_le
    have hmost := hreached'.turns_le
    omega
  exact ⟨hreached, hreached', (hperm _ strayed.reverse_perm.symm).trans hshared⟩

end RTree
