import RTree.Proofs.Scalar.Rounding

namespace RTree

open Scalar (isNumber)

/-- Differences and absolute values that are numbers come from numbers, and absolute values are
above the least value. -/
class SizedScalar (α : Type) [Scalar α] : Prop extends OrderedScalar α where
  isNumber_of_sub {a b : α} : isNumber (a - b) = true → isNumber a = true ∧ isNumber b = true
  isNumber_of_abs {a : α} : isNumber (Scalar.abs a) = true → isNumber a = true
  bottom_lt_abs {a : α} : isNumber (Scalar.abs a) = true → Scalar.bottom < Scalar.abs a

namespace Binary64

open Float.Model Float.Model.UnpackedFloat

theorem rankOf_abs (x : Float) :
    rankOf (Scalar.abs x) = rank (repack x.toModel.unpack.abs) := rfl

theorem sub_notANumber (u : UnpackedFloat) :
    UnpackedFloat.sub .binary64 u .notANumber = .notANumber := by
  cases u <;> rfl

theorem nonneg_abs (u : UnpackedFloat) : u.abs = .notANumber ∨ Nonneg u.abs := by
  cases u with
  | infinity => exact .inr .infinity
  | notANumber => exact .inl rfl
  | zero => exact .inr (.zero _)
  | finite => exact .inr (.finite _ _ _)

end Binary64

open Binary64 in
instance : SizedScalar Float where
  isNumber_of_sub := by
    intro a b hn
    constructor
    · exact isNumber_of_repack (rankOf_sub a b) (fun ha => by rw [ha]; rfl) hn
    · exact isNumber_of_repack (rankOf_sub a b) (fun hb => by rw [hb, sub_notANumber]) hn
  isNumber_of_abs := by
    intro a hn
    exact isNumber_of_repack (rankOf_abs a) (fun ha => by rw [ha]; rfl) hn
  bottom_lt_abs := by
    intro a hn
    have hbottom : (Scalar.bottom : Float) < Scalar.zero := by decide +kernel
    exact Scalar.lt_of_lt_of_le hbottom (zero_le_of_repack (rankOf_abs a) (nonneg_abs _) hn)

end RTree
