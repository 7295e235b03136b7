import BinaryQuadratic.Coefficient

/-! Double precision as coefficients. -/

namespace BinaryQuadratic.Coefficient.Binary64

/-- Maps the bits of a double to a word whose order is total: negative values come first, `-0` before
`0`, and a NaN last. `toBits` gives every NaN the positive pattern, so that one whose sign bit is set,
which a total order of bit patterns has first, comes last here as well. -/
def orderKey (x : Float) : UInt64 :=
  if x.toBits < 0x8000000000000000 then x.toBits ||| 0x8000000000000000 else ~~~x.toBits

instance : Coefficient Float where
  zero := 0
  natCast := Float.ofNat
  intCast := Float.ofInt
  lt := (· < ·)
  le := (· ≤ ·)
  decLt := inferInstance
  decLe := inferInstance
  magnitude := Float.abs
  exp := Float.exp
  log := Float.log
  infinity := 1 / 0
  quotientLt x y z := x / y < z
  isFinite := Float.isFinite
  totalLe x y := orderKey x ≤ orderKey y

example : orderKey (-0) < orderKey 0 := by decide
example : orderKey (1 / 0) < orderKey (0 / 0) := by decide
example : Coefficient.quotientLt (1 : Float) 0 5 = false := by decide
example : Coefficient.quotientLt (1 : Float) (-0) (-5) = true := by decide
example : Coefficient.sum ([] : List Float) = -0 := by decide

end BinaryQuadratic.Coefficient.Binary64
