import BinaryQuadratic.Model.Energy

/-! The maximum cut of a graph. An edge `(u, v)` contributes `2 u v - u - v`, which is `-1` if it
is cut and `0` if not, so that the lowest energy is minus the size of the maximum cut. -/

namespace BinaryQuadratic.MaxCut

variable {V α : Type} [DecidableEq V]

/-- The two ends and the pair of an edge. A loop adds up to nothing. -/
def edgeTerms [Coefficient α] (e : V × V) : List (V × V × α) :=
  [(e.1, e.1, -Coefficient.ofNat 1), (e.2, e.2, -Coefficient.ofNat 1),
    (e.1, e.2, Coefficient.ofNat 2)]

def model [Coefficient α] (edges : List (V × V)) : Model V α := .ofQubo (edges.flatMap edgeTerms)

def cutSize (sample : Assignment V) : List (V × V) → Except (ModelError V) Nat
  | [] => .ok 0
  | (u, v) :: rest => do
    let x ← valueOf sample u
    let y ← valueOf sample v
    let n ← cutSize sample rest
    pure (if x = y then n else n + 1)

end BinaryQuadratic.MaxCut
