/-! Doubles as exact multiples of powers of two, and their position on decimal grids. The point
`c` of the grid `k` stands for `c · 10 ^ k`. -/

namespace BinaryQuadratic.Decimal

structure Dyadic where
  mantissa : Nat
  exponent : Int
  deriving DecidableEq, Repr

namespace Dyadic

def unitOnGrid (x : Dyadic) (k : Int) : Nat × Nat :=
  (Nat.pow 2 x.exponent.toNat * Nat.pow 10 (-k).toNat,
    Nat.pow 2 (-x.exponent).toNat * Nat.pow 10 k.toNat)

def floorOnGrid (x : Dyadic) (k : Int) : Nat :=
  x.mantissa * (x.unitOnGrid k).1 / (x.unitOnGrid k).2

/-- A grid whose first positive point is above the value, and at most a hundred times it.
The fraction is slightly more than the decimal logarithm of two. -/
def gridAbove (x : Dyadic) : Int :=
  (x.exponent + x.mantissa.log2 + 1) * 30103 / 100000 + 1

end Dyadic

inductive Double where
  | nan
  | infinite (negative : Bool)
  | zero (negative : Bool)
  | finite (negative : Bool) (magnitude : Dyadic)
  deriving DecidableEq, Repr

def fractionSize : Nat := Nat.pow 2 52

def exponentSize : Nat := Nat.pow 2 11

def Double.ofBits (bits : Nat) : Double :=
  let negative := bits.testBit 63
  let exponent : Nat := bits / fractionSize % exponentSize
  let fraction := bits % fractionSize
  if exponent = exponentSize - 1 then
    if fraction = 0 then .infinite negative else .nan
  else if exponent = 0 then
    if fraction = 0 then .zero negative else .finite negative ⟨fraction, -1074⟩
  else .finite negative ⟨fractionSize + fraction, exponent - 1075⟩

example : Double.ofBits (Float.toBits 1).toNat = .finite false ⟨fractionSize, -52⟩ := by decide
example : Double.ofBits (Float.toBits (-0)).toNat = .zero true := by decide

end BinaryQuadratic.Decimal
