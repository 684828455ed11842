import RTree.Decimal

namespace RTree

/-- A positive floating-point number between the ends of the interval that rounds to it, all three
over a denominator of their own. -/
structure Rounding where
  low : Nat
  value : Nat
  high : Nat
  denominator : Nat
  /-- Whether the ends themselves round to the number. -/
  closed : Bool

/-- The rounding of `significand * 2 ^ exponent`. The next number below is only half as far away
when the significand is the least of its exponent. -/
def Rounding.ofBinary (significand : Nat) (exponent : Int) (least : Bool) : Rounding :=
  let up := Nat.pow 2 (exponent - 2).toNat
  { low := (4 * significand - if least then 1 else 2) * up
    value := 4 * significand * up
    high := (4 * significand + 2) * up
    denominator := Nat.pow 2 (2 - exponent).toNat
    closed := significand % 2 == 0 }

namespace Rounding

/-- Whether `n / d` times the grid rounds to the number. -/
def admits (r : Rounding) (n scale : Nat) : Bool :=
  if r.closed then decide (r.low ≤ n * scale) && decide (n * scale ≤ r.high)
  else decide (r.low < n * scale) && decide (n * scale < r.high)

/-- The multiple of `10 ^ grid` that rounds to the number and is nearest to it, the upper one of two
equally near; none when no multiple does. -/
def onGrid? (r : Rounding) (grid : Int) : Option Decimal :=
  let up := Nat.pow 10 (-grid).toNat
  let scaled : Rounding :=
    { r with low := r.low * up, value := r.value * up, high := r.high * up }
  let scale := r.denominator * Nat.pow 10 grid.toNat
  let below := scaled.value / scale
  let upper := decide (scale ≤ 2 * (scaled.value % scale))
  match scaled.admits below scale, scaled.admits (below + 1) scale with
  | true, true => some ⟨if upper then below + 1 else below, grid⟩
  | true, false => some ⟨below, grid⟩
  | false, true => some ⟨below + 1, grid⟩
  | false, false => none

/-- A power of ten that is above the number, and at most a hundred times it. -/
def magnitude (r : Rounding) : Int :=
  let bits : Int := Int.ofNat r.value.log2 + 1 - Int.ofNat r.denominator.log2
  if 0 ≤ bits then bits * 30103 / 100000 + 1 else -(-bits * 30102 / 100000)

/-- The decimal on the coarsest grid that has one. Seventeen digits always do. -/
def shortest (r : Rounding) : Decimal :=
  ((List.range 24).findSome? fun i => r.onGrid? (r.magnitude - Int.ofNat i)).getD ⟨0, 0⟩

end Rounding

namespace Binary64

/-- The rounding of a positive finite number given by its bits without the sign. -/
def rounding (bits : Nat) : Rounding :=
  let fraction := bits % Nat.pow 2 52
  let scale := bits / Nat.pow 2 52
  if scale = 0 then .ofBinary fraction (-1074) false
  else
    .ofBinary (fraction + Nat.pow 2 52) (Int.ofNat scale - 1075)
      (fraction == 0 && decide (1 < scale))

/-- The shortest decimal text that reads back as the number; zero keeps its sign. -/
def text (x : Float) : String :=
  let bits := x.toBits.toNat
  let sign := if Nat.pow 2 63 ≤ bits then "-" else ""
  let size := bits % Nat.pow 2 63
  if x.isNaN then "NaN"
  else if x.isInf then sign ++ "inf"
  else if size = 0 then sign ++ "0"
  else sign ++ (rounding size).shortest.positional

end Binary64

end RTree
