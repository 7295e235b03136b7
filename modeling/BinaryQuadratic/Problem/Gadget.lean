/-! Quadratic penalties of gates with two inputs. Each is zero where the third bit is the output of
the gate and at least one elsewhere. -/

namespace BinaryQuadratic

inductive Gate where
  | and
  | or
  deriving DecidableEq, Repr

def Gate.penalty (x y z : Int) : Gate → Int
  | and => x * y - 2 * x * z - 2 * y * z + 3 * z
  | or => x * y + x + y + z - 2 * x * z - 2 * y * z

/-- A gate whose two inputs and output are any three variables in any order, each of them possibly
negated. -/
structure Gadget where
  gate : Gate
  first : Nat
  second : Nat
  output : Nat
  /-- The binary digits say which parts are negated. -/
  negated : Nat
  deriving DecidableEq, Repr

namespace Gadget

def bit (k position : Nat) (negated : Bool) : Int := (k.testBit position ^^ negated).toInt

def penalty (g : Gadget) (k : Nat) : Int :=
  g.gate.penalty (bit k g.first (g.negated.testBit 0)) (bit k g.second (g.negated.testBit 1))
    (bit k g.output (g.negated.testBit 2))

def orders : List (Nat × Nat × Nat) :=
  [(0, 1, 2), (0, 2, 1), (1, 0, 2), (1, 2, 0), (2, 0, 1), (2, 1, 0)]

def all : List Gadget :=
  [Gate.and, Gate.or].flatMap fun gate =>
    orders.flatMap fun (first, second, output) =>
      (List.range 8).map fun negated => ⟨gate, first, second, output, negated⟩

def fits (g : Gadget) (feasible : Nat → Bool) : Bool :=
  (List.range 8).all fun k => if feasible k then g.penalty k = 0 else 1 ≤ g.penalty k

def match? (feasible : Nat → Bool) : Option Gadget := all.find? fun g => g.fits feasible

end Gadget

end BinaryQuadratic
