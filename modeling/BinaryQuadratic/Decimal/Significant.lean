import BinaryQuadratic.Decimal.Dyadic

/-! A fixed number of significant digits, rounded from the exact value. -/

namespace BinaryQuadratic.Decimal

def leadingGrid (x : Dyadic) : Int :=
  let k := x.gridAbove - 1
  if x.floorOnGrid k = 0 then k - 1 else k

def roundOnGrid (x : Dyadic) (k : Int) : Nat :=
  let (n, d) := x.unitOnGrid k
  let c := x.floorOnGrid k
  let rest := 2 * (x.mantissa * n - c * d)
  if rest < d ∨ (rest = d ∧ c % 2 = 0) then c else c + 1

def significant (x : Dyadic) (places : Nat) : Nat × Int :=
  let k := leadingGrid x
  let c := roundOnGrid x (k - places)
  if c = Nat.pow 10 (places + 1) then (Nat.pow 10 places, k + 1) else (c, k)

example : significant ⟨1, -1⟩ 2 = (500, -1) := by decide
example : significant ⟨9999, 0⟩ 2 = (100, 4) := by decide
example : significant ⟨1005, 0⟩ 2 = (100, 3) := by decide

end BinaryQuadratic.Decimal
