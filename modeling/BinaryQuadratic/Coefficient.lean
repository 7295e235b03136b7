/-! Biases and energies are computed in a type of coefficients. Only its operations are fixed
here: rounding arithmetic obeys few laws, so a law is asked for where it is used. -/

namespace BinaryQuadratic

class Coefficient (α : Type) extends Zero α, Add α, Sub α, Mul α, Div α, Neg α,
    NatCast α, IntCast α, LT α, LE α, BEq α where
  decLt : DecidableLT α
  decLe : DecidableLE α
  magnitude : α → α
  exp : α → α
  log : α → α
  infinity : α
  /-- Whether `x / y < z` for a positive `x`. Nothing is above a quotient by zero, unless that zero
  has a negative sign. -/
  quotientLt : α → α → α → Bool
  isFinite : α → Bool
  totalLe : α → α → Bool

namespace Coefficient

variable {α : Type} [Coefficient α]

instance : DecidableLT α := decLt

instance : DecidableLE α := decLe

/-- Adds from left to right, starting at `-0`: that zero is neutral also for a signed zero. -/
@[specialize] def sum (l : List α) : α := l.foldl (· + ·) (-0)

theorem sum_concat (l : List α) (a : α) : sum (l ++ [a]) = sum l + a := by
  simp [sum]

/-- The larger operand; one that differs from itself is passed over. -/
@[inline] def maxNum (a b : α) : α := if a < b then b else if a == a then a else b

/-- The earliest least element among those that equal themselves. -/
@[specialize] def least? (l : List α) : Option α :=
  l.foldl (fun m a =>
    if a == a then
      match m with
      | none => some a
      | some b => if a < b then some a else some b
    else m) none

abbrev ofNat (n : Nat) : α := (n : α)

end Coefficient

end BinaryQuadratic
