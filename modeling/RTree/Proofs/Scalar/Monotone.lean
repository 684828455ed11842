import RTree.Metric
import RTree.Proofs.Scalar.Exact
import RTree.Proofs.Scalar.Steady
import Mathlib.Tactic.Linarith

namespace RTree

open OrderedScalar
open Scalar (isFinite isNumber zero)

variable {α : Type}

/-- Operations that keep the order of values that are not negative, and differences that keep the
order of finite values. -/
class MonotoneScalar (α : Type) [Scalar α] : Prop extends OrderedScalar α where
  isFinite_of_between {a b c : α} : isFinite a = true → isFinite c = true → a ≤ b → b ≤ c →
    isFinite b = true
  sub_le_sub {a b c d : α} : isFinite a = true → isFinite b = true → isFinite c = true →
    isFinite d = true → a ≤ b → c ≤ d → a - d ≤ b - c
  sub_self {a : α} : isFinite a = true → (a - a == zero) = true
  abs_sub_comm {a b : α} : isFinite a = true → isFinite b = true →
    (Scalar.abs (a - b) == Scalar.abs (b - a)) = true
  abs_of_nonneg {a : α} : zero ≤ a → (Scalar.abs a == a) = true
  zero_add_zero : (zero + zero == (zero : α)) = true
  add_le_add {a b c d : α} : zero ≤ a → a ≤ b → zero ≤ c → c ≤ d → a + c ≤ b + d
  zero_mul_zero : (zero * zero == (zero : α)) = true
  mul_self_le {a b : α} : zero ≤ a → a ≤ b → a * a ≤ b * b
  sqrt_le_sqrt {a b : α} : zero ≤ a → a ≤ b → Scalar.sqrt a ≤ Scalar.sqrt b

section Laws

open MonotoneScalar

namespace Scalar

section Order

variable [Scalar α] [OrderedScalar α] {a b c : α}

/-- The larger of a number and a value is at least the number. -/
theorem le_max_left (ha : isNumber a = true) (hb : isNumber b = true) : a ≤ Scalar.max a b :=
  ((max_le_iff ha hb).mp (le_self_iff.mpr (isNumber_max ha hb))).1

/-- Of two numbers that count as equal either may be the larger one. -/
theorem max_comm (ha : isNumber a = true) (hb : isNumber b = true) :
    (Scalar.max a b == Scalar.max b a) = true :=
  beq_iff.mpr ⟨(max_le_iff ha hb).mpr ⟨le_max_right b ha, le_max_left hb ha⟩,
    (max_le_iff hb ha).mpr ⟨le_max_right a hb, le_max_left ha hb⟩⟩

omit [OrderedScalar α] in
theorem max_eq_or (a b : α) : Scalar.max a b = a ∨ Scalar.max a b = b := by
  unfold Scalar.max
  split
  · exact .inr rfl
  · exact .inl rfl

end Order

section Differences

variable [Scalar α] [MonotoneScalar α] {a b : α}

theorem isNumber_zero : isNumber (zero : α) = true := (isNumber_of_beq zero_add_zero).2

theorem zero_le_zero : (zero : α) ≤ zero := le_self_iff.mpr isNumber_zero

theorem le_self_of_isFinite (ha : isFinite a = true) : a ≤ a :=
  le_self_iff.mpr (isNumber_of_isFinite ha)

theorem isNumber_sub (ha : isFinite a = true) (hb : isFinite b = true) :
    isNumber (a - b) = true :=
  le_self_iff.mp
    (sub_le_sub ha ha hb hb (le_self_of_isFinite ha) (le_self_of_isFinite hb))

theorem sub_nonneg (ha : isFinite a = true) (hb : isFinite b = true) (h : b ≤ a) :
    zero ≤ a - b :=
  le_trans (ge_of_beq (sub_self ha)) (sub_le_sub ha ha hb ha (le_self_of_isFinite ha) h)

theorem abs_sub_of_le (ha : isFinite a = true) (hb : isFinite b = true) (h : b ≤ a) :
    (Scalar.abs (a - b) == a - b) = true := abs_of_nonneg (sub_nonneg ha hb h)

theorem abs_sub_of_ge (ha : isFinite a = true) (hb : isFinite b = true) (h : a ≤ b) :
    (Scalar.abs (a - b) == b - a) = true :=
  beq_trans (abs_sub_comm ha hb) (abs_sub_of_le hb ha h)

theorem zero_le_abs_sub (ha : isFinite a = true) (hb : isFinite b = true) :
    zero ≤ Scalar.abs (a - b) := by
  rcases le_total (isNumber_of_isFinite ha) (isNumber_of_isFinite hb) with h | h
  · exact le_trans (sub_nonneg hb ha h) (ge_of_beq (abs_sub_of_ge ha hb h))
  · exact le_trans (sub_nonneg ha hb h) (ge_of_beq (abs_sub_of_le ha hb h))

theorem sub_le_abs_sub (ha : isFinite a = true) (hb : isFinite b = true) :
    a - b ≤ Scalar.abs (a - b) := by
  rcases le_total (isNumber_of_isFinite ha) (isNumber_of_isFinite hb) with h | h
  · refine le_trans ?_ (zero_le_abs_sub ha hb)
    exact le_trans (sub_le_sub ha hb hb hb h (le_self_of_isFinite hb)) (le_of_beq (sub_self hb))
  · exact ge_of_beq (abs_sub_of_le ha hb h)

theorem abs_sub_le_of_beq {a' : α} (ha : isFinite a = true) (ha' : isFinite a' = true)
    (hb : isFinite b = true) (h : (a == a') = true) :
    Scalar.abs (a - b) ≤ Scalar.abs (a' - b) := by
  have hself := le_self_of_isFinite hb
  rcases le_total (isNumber_of_isFinite ha') (isNumber_of_isFinite hb) with hle | hle
  · calc Scalar.abs (a - b) ≤ b - a :=
          le_of_beq (abs_sub_of_ge ha hb (le_trans (le_of_beq h) hle))
      _ ≤ b - a' := sub_le_sub hb hb ha' ha hself (ge_of_beq h)
      _ ≤ Scalar.abs (a' - b) := ge_of_beq (abs_sub_of_ge ha' hb hle)
  · calc Scalar.abs (a - b) ≤ a - b :=
          le_of_beq (abs_sub_of_le ha hb (le_trans hle (ge_of_beq h)))
      _ ≤ a' - b := sub_le_sub ha ha' hb hb (le_of_beq h) hself
      _ ≤ Scalar.abs (a' - b) := sub_le_abs_sub ha' hb

/-- The size of a difference does not tell apart what counts as equal. -/
theorem abs_sub_congr {a' : α} (ha : isFinite a = true) (ha' : isFinite a' = true)
    (hb : isFinite b = true) (h : (a == a') = true) :
    (Scalar.abs (a - b) == Scalar.abs (a' - b)) = true :=
  beq_iff.mpr ⟨abs_sub_le_of_beq ha ha' hb h, abs_sub_le_of_beq ha' ha hb (beq_symm h)⟩

end Differences

end Scalar

open Scalar

/-- The first value is not negative, and the second is at least as large. -/
structure Climbs [Scalar α] (a b : α) : Prop where
  nonneg : (zero : α) ≤ a
  le : a ≤ b

namespace Climbs

theorem map [Scalar α] {as bs : List α} {f : α → α}
    (hf : ∀ {a b : α}, Climbs a b → Climbs (f a) (f b)) (h : List.Forall₂ Climbs as bs) :
    List.Forall₂ Climbs (as.map f) (bs.map f) := by
  rw [List.forall₂_map_left_iff, List.forall₂_map_right_iff]
  exact h.imp fun _ _ => hf

theorem foldl [Scalar α] {as bs : List α} {op : α → α → α}
    (hop : ∀ {a b c d : α}, Climbs a b → Climbs c d → Climbs (op a c) (op b d))
    (h : List.Forall₂ Climbs as bs) {a b : α} (hab : Climbs a b) :
    Climbs (as.foldl op a) (bs.foldl op b) := by
  induction h generalizing a b with
  | nil => exact hab
  | cons hcd _ ih => exact ih (hop hab hcd)

variable [Scalar α] [MonotoneScalar α] {a b c d : α} {as bs : List α}

theorem zero : Climbs (zero : α) Scalar.zero := ⟨zero_le_zero, zero_le_zero⟩

theorem nonneg_right (h : Climbs a b) : (Scalar.zero : α) ≤ b := le_trans h.nonneg h.le

theorem add (h : Climbs a b) (h' : Climbs c d) : Climbs (a + c) (b + d) where
  nonneg := le_trans (ge_of_beq zero_add_zero)
    (add_le_add zero_le_zero h.nonneg zero_le_zero h'.nonneg)
  le := add_le_add h.nonneg h.le h'.nonneg h'.le

theorem mul_self (h : Climbs a b) : Climbs (a * a) (b * b) where
  nonneg := le_trans (ge_of_beq zero_mul_zero) (mul_self_le zero_le_zero h.nonneg)
  le := mul_self_le h.nonneg h.le

theorem max (h : Climbs a b) (h' : Climbs c d) : Climbs (Scalar.max a c) (Scalar.max b d) := by
  obtain ⟨ha, hb⟩ := isNumber_of_le h.le
  obtain ⟨hc, hd⟩ := isNumber_of_le h'.le
  constructor
  · exact le_trans h.nonneg (le_max_left ha hc)
  · rw [max_le_iff ha hc]
    exact ⟨le_trans h.le (le_max_left hb hd), le_trans h'.le (le_max_right b hd)⟩

theorem abs_left (h : Climbs a b) : Climbs (Scalar.abs a) b where
  nonneg := le_trans h.nonneg (ge_of_beq (abs_of_nonneg h.nonneg))
  le := le_trans (le_of_beq (abs_of_nonneg h.nonneg)) h.le

theorem abs_right (h : Climbs a b) : Climbs a (Scalar.abs b) where
  nonneg := h.nonneg
  le := le_trans h.le (ge_of_beq (abs_of_nonneg h.nonneg_right))

theorem sum (h : List.Forall₂ Climbs as bs) : Climbs (Scalar.sum as) (Scalar.sum bs) :=
  foldl add h zero

end Climbs

/-- A vector with larger entries is longer, by each of the metrics. -/
theorem Metric.combine_le [Scalar α] [MonotoneScalar α] (m : Metric) {as bs : List α}
    (h : List.Forall₂ Climbs as bs) : m.combine as ≤ m.combine bs := by
  have hsquares : Climbs (Scalar.sum (as.map fun x => x * x))
      (Scalar.sum (bs.map fun x => x * x)) := Climbs.sum (Climbs.map Climbs.mul_self h)
  cases m with
  | manhattan => exact (Climbs.sum h).le
  | euclidean => exact sqrt_le_sqrt hsquares.nonneg hsquares.le
  | squaredEuclidean => exact hsquares.le
  | chebyshev => exact (Climbs.foldl Climbs.max h Climbs.zero).le

structure Matches [Scalar α] (a b : α) : Prop where
  nonneg : (zero : α) ≤ a
  beq : (a == b) = true

namespace Matches

variable [Scalar α] {a b : α}

theorem climbs [OrderedScalar α] (h : Matches a b) : Climbs a b := ⟨h.nonneg, le_of_beq h.beq⟩

theorem climbs_back [OrderedScalar α] (h : Matches a b) : Climbs b a :=
  ⟨le_trans h.nonneg (le_of_beq h.beq), ge_of_beq h.beq⟩

theorem abs [MonotoneScalar α] (h : Matches a b) : Matches (Scalar.abs a) (Scalar.abs b) where
  nonneg := h.climbs.abs_left.nonneg
  beq := beq_iff.mpr ⟨h.climbs.abs_left.abs_right.le, h.climbs_back.abs_left.abs_right.le⟩

end Matches

/-- Entries that count as equal make vectors whose lengths do. -/
theorem Metric.combine_beq [Scalar α] [MonotoneScalar α] (m : Metric) {as bs : List α}
    (h : List.Forall₂ Matches as bs) : (m.combine as == m.combine bs) = true :=
  beq_iff.mpr ⟨m.combine_le (h.imp fun _ _ => Matches.climbs),
    m.combine_le (h.imp fun _ _ => Matches.climbs_back).flip⟩

theorem Metric.norm_beq [Scalar α] [MonotoneScalar α] (m : Metric) {as bs : List α}
    (h : List.Forall₂ Matches as bs) : (m.norm as == m.norm bs) = true := by
  apply m.combine_beq
  rw [List.forall₂_map_left_iff, List.forall₂_map_right_iff]
  exact h.imp fun _ _ => Matches.abs

end Laws

class MonotoneRoot [SquareRoot] : Prop where
  root_le_root {q r : Rat} : 0 ≤ q → q ≤ r → SquareRoot.root q ≤ SquareRoot.root r

namespace Exact

variable [SquareRoot] {a b : Exact}

theorem zero_eq : (zero : Exact) = finite 0 := rfl

theorem abs_finite (q : Rat) : Scalar.abs (finite q) = finite |q| := rfl

/-- What is not negative is a rational number that is not negative, or infinite. -/
theorem eq_of_zero_le (h : zero ≤ a) : (∃ q : Rat, 0 ≤ q ∧ a = finite q) ∨ a = infinity := by
  cases a with
  | finite q => exact .inl ⟨q, (finite_le 0 q).mp h, rfl⟩
  | infinity => exact .inr rfl
  | negInfinity => cases h
  | noNumber => cases h

/-- What lies between zero and a rational number is rational. -/
theorem eq_finite_of_le {r : Rat} (h : zero ≤ a) (hle : a ≤ finite r) :
    ∃ q : Rat, 0 ≤ q ∧ q ≤ r ∧ a = finite q := by
  rcases eq_of_zero_le h with ⟨q, hq, rfl⟩ | rfl
  · exact ⟨q, hq, (finite_le q r).mp hle, rfl⟩
  · cases hle

theorem le_infinity (h : a ≠ noNumber) : a ≤ infinity := le_top (isNumber_iff.mpr h)

theorem sqrt_finite {q : Rat} (h : 0 ≤ q) :
    Scalar.sqrt (finite q) = finite (SquareRoot.root q) := if_neg (not_lt.mpr h)

theorem add_ne_noNumber (ha : zero ≤ a) (hb : zero ≤ b) : a + b ≠ noNumber := by
  rcases eq_of_zero_le ha with ⟨p, -, rfl⟩ | rfl <;>
    rcases eq_of_zero_le hb with ⟨q, -, rfl⟩ | rfl <;> exact nofun

theorem mul_self_ne_noNumber (h : zero ≤ a) : a * a ≠ noNumber := by
  rcases eq_of_zero_le h with ⟨q, -, rfl⟩ | rfl <;> exact nofun

theorem sqrt_ne_noNumber (h : zero ≤ a) : Scalar.sqrt a ≠ noNumber := by
  rcases eq_of_zero_le h with ⟨q, hq, rfl⟩ | rfl
  · rw [sqrt_finite hq]
    exact nofun
  · exact nofun

end Exact

instance [SquareRoot] [MonotoneRoot] : MonotoneScalar Exact where
  isFinite_of_between {a b c} ha hc hab hbc := by
    obtain ⟨p, rfl⟩ := Exact.isFinite_iff.mp ha
    obtain ⟨r, rfl⟩ := Exact.isFinite_iff.mp hc
    cases b with
    | finite q => rfl
    | infinity => cases hbc
    | negInfinity => cases hab
    | noNumber => cases hab
  sub_le_sub {a b c d} ha hb hc hd hab hcd := by
    obtain ⟨p, rfl⟩ := Exact.isFinite_iff.mp ha
    obtain ⟨q, rfl⟩ := Exact.isFinite_iff.mp hb
    obtain ⟨r, rfl⟩ := Exact.isFinite_iff.mp hc
    obtain ⟨s, rfl⟩ := Exact.isFinite_iff.mp hd
    simp only [Exact.finite_le, Exact.finite_sub] at *
    linarith
  sub_self {a} ha := by
    obtain ⟨p, rfl⟩ := Exact.isFinite_iff.mp ha
    simp [Exact.zero_eq, beq_iff]
  abs_sub_comm {a b} ha hb := by
    obtain ⟨p, rfl⟩ := Exact.isFinite_iff.mp ha
    obtain ⟨q, rfl⟩ := Exact.isFinite_iff.mp hb
    simp [Exact.abs_finite, beq_iff, abs_sub_comm p q]
  abs_of_nonneg {a} h := by
    rcases Exact.eq_of_zero_le h with ⟨q, hq, rfl⟩ | rfl
    · simp [Exact.abs_finite, beq_iff, abs_of_nonneg hq]
    · rfl
  zero_add_zero := by simp [Exact.zero_eq, beq_iff]
  add_le_add {a b c d} ha hab hc hcd := by
    rcases Exact.eq_of_zero_le (le_trans ha hab) with ⟨q, -, rfl⟩ | rfl
    · rcases Exact.eq_of_zero_le (le_trans hc hcd) with ⟨s, -, rfl⟩ | rfl
      · obtain ⟨p, -, hpq, rfl⟩ := Exact.eq_finite_of_le ha hab
        obtain ⟨r, -, hrs, rfl⟩ := Exact.eq_finite_of_le hc hcd
        simp only [Exact.finite_add, Exact.finite_le]
        linarith
      · exact Exact.le_infinity (Exact.add_ne_noNumber ha hc)
    · have hsum : Exact.infinity + d = Exact.infinity := by
        rcases Exact.eq_of_zero_le (le_trans hc hcd) with ⟨s, -, rfl⟩ | rfl <;> rfl
      rw [hsum]
      exact Exact.le_infinity (Exact.add_ne_noNumber ha hc)
  zero_mul_zero := by simp [Exact.zero_eq, beq_iff]
  mul_self_le {a b} ha hab := by
    rcases Exact.eq_of_zero_le (le_trans ha hab) with ⟨q, -, rfl⟩ | rfl
    · obtain ⟨p, hp, hpq, rfl⟩ := Exact.eq_finite_of_le ha hab
      simp only [Exact.finite_mul, Exact.finite_le]
      exact mul_self_le_mul_self hp hpq
    · exact Exact.le_infinity (Exact.mul_self_ne_noNumber ha)
  sqrt_le_sqrt {a b} ha hab := by
    rcases Exact.eq_of_zero_le (le_trans ha hab) with ⟨q, hq, rfl⟩ | rfl
    · obtain ⟨p, hp, hpq, rfl⟩ := Exact.eq_finite_of_le ha hab
      rw [Exact.sqrt_finite hp, Exact.sqrt_finite hq, Exact.finite_le]
      exact MonotoneRoot.root_le_root hp hpq
    · exact Exact.le_infinity (Exact.sqrt_ne_noNumber ha)

end RTree
