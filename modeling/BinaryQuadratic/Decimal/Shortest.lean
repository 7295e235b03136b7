import BinaryQuadratic.Decimal.Dyadic

/-! The fewest decimal digits that read back to the same double. Of the grids that come close
enough the coarsest is taken, and on it the point nearest to the value. -/

namespace BinaryQuadratic.Decimal

/-- The numbers that read back to one double, in quarters of the unit of its last digit. -/
structure Readback where
  low : Nat
  value : Dyadic
  high : Nat
  closed : Bool

namespace Readback

/-- Below a power of two the neighbouring double is only half as far away. An end goes to the
even mantissa. -/
def ofDyadic (x : Dyadic) : Readback where
  low := if x.mantissa = fractionSize ∧ -1074 < x.exponent then 4 * x.mantissa - 1
    else 4 * x.mantissa - 2
  value := ⟨4 * x.mantissa, x.exponent - 2⟩
  high := 4 * x.mantissa + 2
  closed := x.mantissa % 2 = 0

def contains (r : Readback) (k : Int) (c : Nat) : Bool :=
  let (n, d) := r.value.unitOnGrid k
  if r.closed then r.low * n ≤ c * d && c * d ≤ r.high * n
  else r.low * n < c * d && c * d < r.high * n

def nearest? (r : Readback) (k : Int) : Option Nat :=
  let c := r.value.floorOnGrid k
  let (n, d) := r.value.unitOnGrid k
  match r.contains k c, r.contains k (c + 1) with
  | true, true => if 2 * (r.value.mantissa * n) < (2 * c + 1) * d then some c else some (c + 1)
  | true, false => some c
  | false, true => some (c + 1)
  | false, false => none

end Readback

/-- A digit string and the grid that it is a point of. Seventeen digits always read back, so one
of the grids tried does. -/
def shortest (x : Dyadic) : Nat × Int :=
  let r := Readback.ofDyadic x
  ((List.range 20).findSome? fun (i : Nat) =>
    let k := x.gridAbove - i
    (r.nearest? k).map (·, k)).getD (0, 0)

example : shortest ⟨1, -1074⟩ = (5, -324) := by decide +kernel
example : shortest ⟨fractionSize, 1 - 52⟩ = (2, 0) := by decide
example : shortest ⟨0x1999999999999a, -56⟩ = (1, -1) := by decide

end BinaryQuadratic.Decimal
