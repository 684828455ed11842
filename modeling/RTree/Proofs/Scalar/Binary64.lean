import RTree.Scalar.Binary64
import RTree.Proofs.Scalar.Ordered
import Mathlib.Algebra.Order.Ring.Int
import Mathlib.Data.Prod.Lex

namespace RTree

namespace Binary64

open Float.Model

/-- First the sign and size class, then the exponent, then the significand. -/
def rank : UnpackedFloat → Option (Int ×ₗ Int ×ₗ Int)
  | .notANumber => none
  | .infinity .negative => some (toLex (-2, toLex (0, 0)))
  | .finite .negative m e _ => some (toLex (-1, toLex (-e, -m)))
  | .zero _ => some (toLex (0, toLex (0, 0)))
  | .finite .positive m e _ => some (toLex (1, toLex (e, m)))
  | .infinity .positive => some (toLex (2, toLex (0, 0)))

theorem then_compare (e e' : Int) (m m' : Nat) :
    (compareOfLessAndEq e e').then (compareOfLessAndEq m m') =
      if e < e' ∨ e = e' ∧ m < m' then .lt else if e = e' ∧ m = m' then .eq else .gt := by
  unfold compareOfLessAndEq
  rcases Int.lt_trichotomy e e' with h | h | h
  · simp [h]
  · subst h
    rcases Nat.lt_trichotomy m m' with hm | hm | hm <;> simp_all [Ordering.then]
  · have hn : ¬ e < e' ∧ e ≠ e' := by omega
    simp [hn, Ordering.then]

/-- Comparing values is comparing ranks. -/
theorem compare_eq (a b : UnpackedFloat) :
    a.compare b = (rank a).bind fun r => (rank b).map fun s =>
      if r < s then .lt else if r = s then .eq else .gt := by
  rcases a with (_ | _) | _ | (_ | _) | ⟨(_ | _), m, e, hm⟩ <;>
    rcases b with (_ | _) | _ | (_ | _) | ⟨(_ | _), m', e', hm'⟩ <;>
    try rfl
  case finite.negative.finite.negative =>
    have hlt : toLex ((-1 : Int), toLex (-e, -(m : Int))) < toLex (-1, toLex (-e', -(m' : Int))) ↔
        e' < e ∨ e = e' ∧ m' < m := by
      simp [Prod.Lex.toLex_lt_toLex]
    have heq : toLex ((-1 : Int), toLex (-e, -(m : Int))) = toLex (-1, toLex (-e', -(m' : Int))) ↔
        e = e' ∧ m = m' := by
      simp
    change some ((compareOfLessAndEq e e').then (compareOfLessAndEq m m')).swap =
      some (if _ < _ then .lt else if _ = _ then .eq else .gt)
    rw [then_compare, if_congr hlt rfl (if_congr heq rfl rfl)]
    split_ifs <;> simp <;> omega
  case finite.positive.finite.positive =>
    have hlt : toLex ((1 : Int), toLex (e, (m : Int))) < toLex (1, toLex (e', (m' : Int))) ↔
        e < e' ∨ e = e' ∧ m < m' := by
      simp [Prod.Lex.toLex_lt_toLex]
    have heq : toLex ((1 : Int), toLex (e, (m : Int))) = toLex (1, toLex (e', (m' : Int))) ↔
        e = e' ∧ m = m' := by
      simp
    change some ((compareOfLessAndEq e e').then (compareOfLessAndEq m m')) =
      some (if _ < _ then .lt else if _ = _ then .eq else .gt)
    rw [then_compare, if_congr hlt rfl (if_congr heq rfl rfl)]

def rankOf (x : Float) : Option (Int ×ₗ Int ×ₗ Int) := rank x.toModel.unpack

theorem le_iff {x y : Float} :
    x ≤ y ↔ ∃ r s, rankOf x = some r ∧ rankOf y = some s ∧ r ≤ s := by
  have h : x ≤ y ↔ (x.toModel.unpack.compare y.toModel.unpack).any (·.isLE) = true := by
    show decide _ = true ↔ _
    simp only [decide_eq_true_eq]
    rfl
  rw [h, compare_eq]
  show ((rankOf x).bind fun r => (rankOf y).map fun s => _).any _ = true ↔ _
  cases rankOf x with
  | none => simp
  | some r =>
    cases rankOf y with
    | none => simp
    | some s =>
      rcases lt_trichotomy r s with hr | hr | hr
      · simp [hr, hr.le]
      · simp [hr]
      · simp [hr.not_gt, hr.ne', hr.not_ge]

theorem lt_iff {x y : Float} :
    x < y ↔ ∃ r s, rankOf x = some r ∧ rankOf y = some s ∧ r < s := by
  have h : x < y ↔ (x.toModel.unpack.compare y.toModel.unpack == some .lt) = true := by
    show decide _ = true ↔ _
    simp only [decide_eq_true_eq]
    rfl
  rw [h, compare_eq]
  show (((rankOf x).bind fun r => (rankOf y).map fun s => _) == some Ordering.lt) = true ↔ _
  cases rankOf x with
  | none => simp
  | some r =>
    cases rankOf y with
    | none => simp
    | some s =>
      rcases lt_trichotomy r s with hr | hr | hr
      · simp [hr]
      · simp [hr]
      · simp [hr.not_gt, hr.ne']

theorem beq_iff {x y : Float} :
    (x == y) = true ↔ ∃ r, rankOf x = some r ∧ rankOf y = some r := by
  have h : (x == y) = (x.toModel.unpack.compare y.toModel.unpack == some .eq) := rfl
  rw [h, compare_eq]
  show (((rankOf x).bind fun r => (rankOf y).map fun s => _) == some Ordering.eq) = true ↔ _
  cases rankOf x with
  | none => simp
  | some r =>
    cases rankOf y with
    | none => simp
    | some s =>
      rcases lt_trichotomy r s with hr | hr | hr
      · simp [hr, hr.ne']
      · simp [hr]
      · simp [hr.not_gt, hr.ne, hr.ne']

theorem isNumber_iff {x : Float} : Scalar.isNumber x = true ↔ ∃ r, rankOf x = some r := by
  unfold Scalar.isNumber
  rw [beq_iff]
  simp only [and_self]

theorem rankOf_infinity : rankOf infinity = some (toLex (2, toLex (0, 0))) := by decide +kernel

theorem rankOf_negInfinity : rankOf negInfinity = some (toLex (-2, toLex (0, 0))) := by
  decide +kernel

/-- No rank lies outside those of the two infinities. -/
theorem rank_bounds {u : UnpackedFloat} {r : Int ×ₗ Int ×ₗ Int} (h : rank u = some r) :
    toLex (-2, toLex (0, 0)) ≤ r ∧ r ≤ toLex (2, toLex (0, 0)) := by
  rcases u with (_ | _) | _ | (_ | _) | ⟨(_ | _), m, e, hm⟩ <;> cases h
  all_goals simp [Prod.Lex.toLex_le_toLex]

theorem exists_rank_of_isFinite {u : UnpackedFloat} (h : u.isFinite = true) :
    ∃ r, rank u = some r := by
  rcases u with (_ | _) | _ | (_ | _) | ⟨(_ | _), m, e, hm⟩ <;> first | exact ⟨_, rfl⟩ | cases h

end Binary64

open Binary64 in
instance : OrderedScalar Float where
  le_trans := by
    intro a b c hab hbc
    obtain ⟨r, s, hr, hs, hrs⟩ := le_iff.mp hab
    obtain ⟨s', q, hs', hq, hsq⟩ := le_iff.mp hbc
    obtain rfl : s = s' := Option.some.inj (hs.symm.trans hs')
    exact le_iff.mpr ⟨r, q, hr, hq, hrs.trans hsq⟩
  le_total := by
    intro a b ha hb
    obtain ⟨r, hr⟩ := isNumber_iff.mp ha
    obtain ⟨s, hs⟩ := isNumber_iff.mp hb
    exact (le_total r s).imp (fun h => le_iff.mpr ⟨r, s, hr, hs, h⟩)
      fun h => le_iff.mpr ⟨s, r, hs, hr, h⟩
  isNumber_of_le := by
    intro a b h
    obtain ⟨r, s, hr, hs, -⟩ := le_iff.mp h
    exact ⟨isNumber_iff.mpr ⟨r, hr⟩, isNumber_iff.mpr ⟨s, hs⟩⟩
  lt_iff := by
    intro a b
    rw [Binary64.lt_iff, isNumber_iff, isNumber_iff, le_iff]
    cases rankOf a <;> cases rankOf b <;> simp
  beq_iff := by
    intro a b
    rw [Binary64.beq_iff, le_iff, le_iff]
    cases rankOf a <;> cases rankOf b <;> simp
    exact ⟨fun h => by simp [h], fun h => le_antisymm h.2 h.1⟩
  isNumber_top := isNumber_iff.mpr ⟨_, rankOf_infinity⟩
  isNumber_bottom := isNumber_iff.mpr ⟨_, rankOf_negInfinity⟩
  le_top := by
    intro a h
    obtain ⟨r, hr⟩ := isNumber_iff.mp h
    exact le_iff.mpr ⟨r, _, hr, rankOf_infinity, (rank_bounds hr).2⟩
  bottom_le := by
    intro a h
    obtain ⟨r, hr⟩ := isNumber_iff.mp h
    exact le_iff.mpr ⟨_, r, rankOf_negInfinity, hr, (rank_bounds hr).1⟩
  isNumber_of_isFinite := fun h => isNumber_iff.mpr (exists_rank_of_isFinite h)

end RTree
