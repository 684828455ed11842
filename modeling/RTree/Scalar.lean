
namespace RTree

/-- Numbers with comparisons, the four operations, a least and a greatest value.
Nothing is assumed of them: a value may be unequal to itself and incomparable with all others. -/
class Scalar (α : Type) extends Add α, Sub α, Mul α, Div α, LT α, LE α, BEq α where
  decLt : ∀ a b : α, Decidable (a < b)
  decLe : ∀ a b : α, Decidable (a ≤ b)
  zero : α
  one : α
  two : α
  /-- The value above every number: the lower edge of an empty range. -/
  top : α
  /-- The value below every number: the upper edge of an empty range. -/
  bottom : α
  abs : α → α
  sqrt : α → α
  isFinite : α → Bool
  ofNat : Nat → α
  /-- The whole part as a 64-bit count: 0 for what is negative or no number, at most
  `2 ^ 64 - 1`. -/
  wholePart : α → Nat

namespace Scalar

variable {α : Type} [Scalar α]

instance (a b : α) : Decidable (a < b) := decLt a b

instance (a b : α) : Decidable (a ≤ b) := decLe a b

/-- Only a value that is no number differs from itself. -/
def isNumber (a : α) : Bool := a == a

/-- The smaller of two values, the first of equals; what is no number gives way to the other. -/
def min (a b : α) : α := if b < a || !isNumber a then b else a

def max (a b : α) : α := if a < b || !isNumber a then b else a

def sum (xs : List α) : α := xs.foldl (· + ·) zero

def product (xs : List α) : α := xs.foldl (· * ·) one

end Scalar

end RTree
