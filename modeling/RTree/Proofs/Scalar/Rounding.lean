import RTree.Proofs.Scalar.Binary64
import RTree.Proofs.Scalar.Steady
import Mathlib

/-!
Each operation works on unpacked numbers and packs the result again. It cannot tell two operands
apart that count as equal, unless it divides by a zero.
-/

namespace RTree

namespace Binary64

open Float.Model Float.Model.UnpackedFloat

/-- What is left of an unpacked number after it has been packed. -/
def repack (u : UnpackedFloat) : UnpackedFloat :=
  UnpackedFloat.unpack .binary64 (UnpackedFloat.pack .binary64 u)

theorem rankOf_add (x y : Float) : rankOf (x + y) =
    rank (repack (UnpackedFloat.add .binary64 x.toModel.unpack y.toModel.unpack)) := rfl

theorem rankOf_sub (x y : Float) : rankOf (x - y) =
    rank (repack (UnpackedFloat.sub .binary64 x.toModel.unpack y.toModel.unpack)) := rfl

theorem rankOf_mul (x y : Float) : rankOf (x * y) =
    rank (repack (UnpackedFloat.mul .binary64 x.toModel.unpack y.toModel.unpack)) := rfl

theorem rankOf_div (x y : Float) : rankOf (x / y) =
    rank (repack (UnpackedFloat.div .binary64 x.toModel.unpack y.toModel.unpack)) := rfl

/-- Unpacked numbers that are the same, but for the sign of a zero. -/
inductive Same : UnpackedFloat → UnpackedFloat → Prop
  | refl (u : UnpackedFloat) : Same u u
  | zero (s s' : Sign) : Same (.zero s) (.zero s')

theorem Same.of_rank {u v : UnpackedFloat} (h : rank u = rank v) : Same u v := by
  rcases u with (_ | _) | _ | s | ⟨(_ | _), m, e, hm⟩ <;>
    rcases v with (_ | _) | _ | s' | ⟨(_ | _), m', e', hm'⟩ <;>
      simp [rank] at h
  all_goals first
    | exact .refl _
    | exact .zero _ _
    | (obtain ⟨rfl, rfl⟩ := h; exact .refl _)

theorem Same.eq_of_ne_zero {u v : UnpackedFloat} (h : Same u v) (hne : ∀ s, u ≠ .zero s) :
    v = u := by
  cases h with
  | refl => rfl
  | zero s s' => exact absurd rfl (hne s)

theorem rank_repack_zero (s : Sign) : rank (repack (.zero s)) = some (toLex (0, toLex (0, 0))) := by
  cases s <;> decide +kernel

theorem rank_repack_notANumber : rank (repack .notANumber) = none := by decide +kernel

theorem Same.rank_repack {u v : UnpackedFloat} (h : Same u v) :
    rank (repack u) = rank (repack v) := by
  cases h with
  | refl => rfl
  | zero s s' => rw [rank_repack_zero, rank_repack_zero]

section Operations

variable {u u' v v' : UnpackedFloat}

/-- An operation keeps what is the same when it cannot tell the zeros apart in either operand. -/
theorem Same.map₂ {op : UnpackedFloat → UnpackedFloat → UnpackedFloat}
    (hzeros : ∀ s s' t t' : Sign, Same (op (.zero s) (.zero t)) (op (.zero s') (.zero t')))
    (hleft : ∀ (s s' : Sign) v, Same (op (.zero s) v) (op (.zero s') v))
    (hright : ∀ u (t t' : Sign), Same (op u (.zero t)) (op u (.zero t')))
    (hu : Same u u') (hv : Same v v') : Same (op u v) (op u' v') := by
  cases hu with
  | refl u =>
    cases hv with
    | refl v => exact .refl _
    | zero t t' => exact hright u t t'
  | zero s s' =>
    cases hv with
    | refl v => exact hleft s s' v
    | zero t t' => exact hzeros s s' t t'

theorem Same.add (hu : Same u u') (hv : Same v v') :
    Same (UnpackedFloat.add .binary64 u v) (UnpackedFloat.add .binary64 u' v') := by
  have hzeros : ∀ s s' t t' : Sign, Same (UnpackedFloat.add .binary64 (.zero s) (.zero t))
      (UnpackedFloat.add .binary64 (.zero s') (.zero t')) := by
    intro s s' t t'
    cases s <;> cases s' <;> cases t <;> cases t' <;> exact .zero _ _
  refine Same.map₂ hzeros ?_ ?_ hu hv
  · intro s s' v
    cases v <;> first | exact hzeros _ _ _ _ | exact .refl _
  · intro u t t'
    cases u <;> first | exact hzeros _ _ _ _ | exact .refl _

theorem Same.sub (hu : Same u u') (hv : Same v v') :
    Same (UnpackedFloat.sub .binary64 u v) (UnpackedFloat.sub .binary64 u' v') := by
  have hzeros : ∀ s s' t t' : Sign, Same (UnpackedFloat.sub .binary64 (.zero s) (.zero t))
      (UnpackedFloat.sub .binary64 (.zero s') (.zero t')) := by
    intro s s' t t'
    cases s <;> cases s' <;> cases t <;> cases t' <;> exact .zero _ _
  refine Same.map₂ hzeros ?_ ?_ hu hv
  · intro s s' v
    cases v <;> first | exact hzeros _ _ _ _ | exact .refl _
  · intro u t t'
    cases u <;> first | exact hzeros _ _ _ _ | exact .refl _

theorem Same.mul (hu : Same u u') (hv : Same v v') :
    Same (UnpackedFloat.mul .binary64 u v) (UnpackedFloat.mul .binary64 u' v') := by
  refine Same.map₂ (fun _ _ _ _ => .zero _ _) ?_ ?_ hu hv
  · intro s s' v
    cases v <;> first | exact .zero _ _ | exact .refl _
  · intro u t t'
    cases u <;> first | exact .zero _ _ | exact .refl _

/-- The two zeros may be exchanged in a dividend. -/
theorem Same.div (hu : Same u u') (hv : ∀ s, v ≠ .zero s) :
    Same (UnpackedFloat.div .binary64 u v) (UnpackedFloat.div .binary64 u' v) := by
  cases hu with
  | refl u => exact .refl _
  | zero s s' =>
    cases v with
    | infinity t => exact .zero _ _
    | notANumber => exact .refl _
    | zero t => exact absurd rfl (hv t)
    | finite t m e hm => exact .zero _ _

theorem mul_notANumber (u : UnpackedFloat) :
    UnpackedFloat.mul .binary64 u .notANumber = .notANumber := by
  cases u <;> rfl

end Operations

inductive Nonneg : UnpackedFloat → Prop
  | zero (s : Sign) : Nonneg (.zero s)
  | finite (m : Nat) (e : Int) (hm : 0 < m) : Nonneg (.finite .positive m e hm)
  | infinity : Nonneg (.infinity .positive)

theorem nonneg_iff {u : UnpackedFloat} :
    Nonneg u ↔ ∃ r, rank u = some r ∧ toLex (0, toLex (0, 0)) ≤ r := by
  constructor
  · intro h
    cases h <;> exact ⟨_, rfl, by simp [Prod.Lex.toLex_le_toLex]⟩
  · rintro ⟨r, hr, hle⟩
    rcases u with (_ | _) | _ | s | ⟨(_ | _), m, e, hm⟩ <;> cases hr
    · simp [Prod.Lex.toLex_le_toLex] at hle
    · exact .infinity
    · exact .zero s
    · simp [Prod.Lex.toLex_le_toLex] at hle
    · exact .finite m e hm

/-- What has been packed with a positive sign is not negative. -/
theorem nonneg_unpack (exponent : BitVec Format.binary64.exponentBits)
    (mantissa : BitVec Format.binary64.mantissaBitsWithoutImplicit) :
    UnpackedFloat.unpack .binary64 (packComponents .binary64 .positive exponent mantissa) =
        .notANumber ∨
      Nonneg (UnpackedFloat.unpack .binary64
        (packComponents .binary64 .positive exponent mantissa)) := by
  have hsign : Sign.ofBitVec (unpackSign
      (packComponents .binary64 .positive exponent mantissa)) = .positive := by
    rw [unpackSign_packComponents]
    rfl
  unfold UnpackedFloat.unpack
  simp only [hsign]
  split
  · split
    · exact .inr .infinity
    · exact .inl rfl
  · split
    · split
      · exact .inr (.zero _)
      · exact .inr (.finite _ _ _)
    · exact .inr (.finite _ _ _)

theorem Nonneg.repack {u : UnpackedFloat} (h : Nonneg u) :
    repack u = .notANumber ∨ Nonneg (repack u) := by
  cases h with
  | zero s => exact .inr (nonneg_iff.mpr ⟨_, rank_repack_zero s, le_refl _⟩)
  | infinity => exact nonneg_unpack _ _
  | finite m e hm =>
    unfold Binary64.repack UnpackedFloat.pack
    dsimp only
    split
    · exact nonneg_unpack _ _
    · split
      · exact nonneg_unpack _ _
      · exact nonneg_unpack _ _

theorem nonneg_roundWithAccuracy (m : Nat) (e : Int) (accuracy : Accuracy) :
    Nonneg (roundWithAccuracy .binary64 .positive m e accuracy) := by
  unfold roundWithAccuracy
  dsimp only
  split
  · exact .zero _
  · exact .finite _ _ _

theorem Nonneg.mul {u v : UnpackedFloat} (hu : Nonneg u) (hv : Nonneg v) :
    UnpackedFloat.mul .binary64 u v = .notANumber ∨ Nonneg (UnpackedFloat.mul .binary64 u v) := by
  cases hu <;> cases hv <;> first
    | exact .inl rfl
    | exact .inr (.zero _)
    | exact .inr .infinity
    | exact .inr (nonneg_roundWithAccuracy _ _ _)

theorem Nonneg.div {u v : UnpackedFloat} (hu : Nonneg u) (hv : Nonneg v)
    (hne : ∀ s, v ≠ .zero s) :
    UnpackedFloat.div .binary64 u v = .notANumber ∨ Nonneg (UnpackedFloat.div .binary64 u v) := by
  cases hv with
  | zero s => exact absurd rfl (hne s)
  | infinity =>
    cases hu <;> first | exact .inl rfl | exact .inr (.zero _)
  | finite m e hm =>
    cases hu <;> first
      | exact .inr (.zero _)
      | exact .inr .infinity
      | exact .inr (nonneg_roundWithAccuracy _ _ _)

theorem alike_iff {x y : Float} : Scalar.Alike x y ↔ rankOf x = rankOf y := by
  have hx : Scalar.isNumber x = false ↔ rankOf x = none := by
    rw [← Bool.not_eq_true, isNumber_iff, ← Option.ne_none_iff_exists', not_not]
  have hy : Scalar.isNumber y = false ↔ rankOf y = none := by
    rw [← Bool.not_eq_true, isNumber_iff, ← Option.ne_none_iff_exists', not_not]
  unfold Scalar.Alike
  rw [beq_iff, hx, hy]
  constructor
  · rintro (⟨r, hr, hs⟩ | ⟨hr, hs⟩)
    · rw [hr, hs]
    · rw [hr, hs]
  · intro h
    cases hr : rankOf x with
    | none => exact .inr ⟨rfl, h ▸ hr⟩
    | some r => exact .inl ⟨r, rfl, h ▸ hr⟩

theorem same_of_alike {x y : Float} (h : Scalar.Alike x y) :
    Same x.toModel.unpack y.toModel.unpack := Same.of_rank (alike_iff.mp h)

theorem rankOf_zero : rankOf Scalar.zero = some (toLex (0, toLex (0, 0))) := by decide +kernel

theorem nonneg_of_zero_le {x : Float} (h : Scalar.zero ≤ x) : Nonneg x.toModel.unpack := by
  obtain ⟨r, s, hr, hs, hle⟩ := le_iff.mp h
  obtain rfl := Option.some.inj (rankOf_zero.symm.trans hr)
  exact nonneg_iff.mpr ⟨s, hs, hle⟩

theorem ne_zero_of_pos {x : Float} (h : Scalar.zero < x) (s : Sign) :
    x.toModel.unpack ≠ .zero s := by
  obtain ⟨r, r', hr, hr', hlt⟩ := lt_iff.mp h
  intro hx
  have hzero : rankOf x = some (toLex (0, toLex (0, 0))) := congrArg rank hx
  obtain rfl := Option.some.inj (rankOf_zero.symm.trans hr)
  obtain rfl := Option.some.inj (hzero.symm.trans hr')
  exact lt_irrefl _ hlt

/-- A number that was packed from a value that is not negative is not negative. -/
theorem zero_le_of_repack {x : Float} {u : UnpackedFloat} (hx : rankOf x = rank (repack u))
    (hu : u = .notANumber ∨ Nonneg u) (hn : Scalar.isNumber x = true) : Scalar.zero ≤ x := by
  obtain ⟨r, hr⟩ := isNumber_iff.mp hn
  have hu' : repack u = .notANumber ∨ Nonneg (repack u) := by
    rcases hu with rfl | hu
    · rw [rank_repack_notANumber, hr] at hx
      cases hx
    · exact hu.repack
  rcases hu' with hnot | hnonneg
  · rw [hnot, hr] at hx
    cases hx
  · obtain ⟨r', hr', hle⟩ := nonneg_iff.mp hnonneg
    exact le_iff.mpr ⟨_, r', rankOf_zero, hx.trans hr', hle⟩

theorem rank_eq_none_iff {u : UnpackedFloat} : rank u = none ↔ u = .notANumber := by
  rcases u with (_ | _) | _ | s | ⟨(_ | _), m, e, hm⟩ <;> simp [rank]

/-- What is no number leads to no number. -/
theorem isNumber_of_repack {x y : Float} {u : UnpackedFloat} (hx : rankOf x = rank (repack u))
    (hu : y.toModel.unpack = .notANumber → u = .notANumber) (hn : Scalar.isNumber x = true) :
    Scalar.isNumber y = true := by
  obtain ⟨r, hr⟩ := isNumber_iff.mp hn
  cases hy : rankOf y with
  | some s => exact isNumber_iff.mpr ⟨s, hy⟩
  | none =>
    rw [hu (rank_eq_none_iff.mp hy), rank_repack_notANumber, hr] at hx
    cases hx

end Binary64

open Binary64 in
instance : SteadyScalar Float where
  add_alike := by
    intro a a' b b' ha hb
    rw [alike_iff, rankOf_add, rankOf_add]
    exact ((same_of_alike ha).add (same_of_alike hb)).rank_repack
  sub_alike := by
    intro a a' b b' ha hb
    rw [alike_iff, rankOf_sub, rankOf_sub]
    exact ((same_of_alike ha).sub (same_of_alike hb)).rank_repack
  mul_alike := by
    intro a a' b b' ha hb
    rw [alike_iff, rankOf_mul, rankOf_mul]
    exact ((same_of_alike ha).mul (same_of_alike hb)).rank_repack
  div_alike := by
    intro a a' b b' ha hb hpos
    have hb' := (same_of_alike hb).eq_of_ne_zero (ne_zero_of_pos hpos)
    rw [alike_iff, rankOf_div, rankOf_div, hb']
    exact ((same_of_alike ha).div (ne_zero_of_pos hpos)).rank_repack
  isNumber_of_mul := by
    intro a b hn
    constructor
    · exact isNumber_of_repack (rankOf_mul a b) (fun ha => by rw [ha]; rfl) hn
    · exact isNumber_of_repack (rankOf_mul a b) (fun hb => by rw [hb, mul_notANumber]) hn
  isNumber_of_div := by
    intro a b hn
    exact isNumber_of_repack (rankOf_div a b) (fun ha => by rw [ha]; rfl) hn
  mul_nonneg := by
    intro a b ha hb hn
    exact zero_le_of_repack (rankOf_mul a b)
      ((nonneg_of_zero_le ha).mul (nonneg_of_zero_le hb)) hn
  div_nonneg := by
    intro a b ha hb hn
    exact zero_le_of_repack (rankOf_div a b)
      ((nonneg_of_zero_le ha).div (nonneg_of_zero_le (Scalar.le_of_lt hb)) (ne_zero_of_pos hb)) hn
  zero_le_one := by decide +kernel

end RTree
