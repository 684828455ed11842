import RTree.Scalar

namespace RTree

namespace Binary64

def infinity : Float := Float.ofBits 0x7ff0000000000000

def negInfinity : Float := Float.ofBits 0xfff0000000000000

end Binary64

instance : Scalar Float where
  decLt := fun a b => inferInstanceAs (Decidable (a < b))
  decLe := fun a b => inferInstanceAs (Decidable (a ≤ b))
  zero := 0
  one := 1
  two := 2
  top := Binary64.infinity
  bottom := Binary64.negInfinity
  abs := Float.abs
  sqrt := Float.sqrt
  isFinite := Float.isFinite
  ofNat := Float.ofNat
  wholePart := fun a => a.toUInt64.toNat

end RTree
