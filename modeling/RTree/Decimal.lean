
namespace RTree

/-- The number `digits * 10 ^ exponent`. -/
structure Decimal where
  digits : Nat
  exponent : Int
  deriving DecidableEq

namespace Decimal

/-- Whole numbers have no point, fractions have a digit on each side of it; there is never an
exponent. -/
def positional (d : Decimal) : String :=
  let written := Nat.toDigits 10 d.digits
  if 0 ≤ d.exponent then String.ofList (written ++ List.replicate d.exponent.toNat '0')
  else
    let places := (-d.exponent).toNat
    let padded := List.replicate (places + 1 - written.length) '0' ++ written
    let whole := padded.length - places
    String.ofList (padded.take whole ++ '.' :: padded.drop whole)

/-- The floating-point number nearest to the decimal, infinity for a decimal beyond all of them. Of
decimals far outside their range only the number of digits is looked at. -/
def nearest (d : Decimal) : Float :=
  let size := Int.ofNat (Nat.toDigits 10 d.digits).length + d.exponent
  if d.digits = 0 then 0
  else if 400 < size then Float.ofBits 0x7ff0000000000000
  else if size < -400 then 0
  else Float.ofScientific d.digits (decide (d.exponent < 0)) d.exponent.natAbs

end Decimal

end RTree
