import BinaryQuadratic.Problem.Stitching

/-! Two models of the gate `c = a && b` over bits. -/

namespace BinaryQuadratic.AndGate

open Coefficient

variable {V α : Type} [DecidableEq V] [Coefficient α]

inductive Encoding (α : Type) where
  /-- The penalty `(p + 1) a b + (p - 1) c - a c - b c`, which is lowest only where `c` is zero. -/
  | manual (p : α)
  | stitched (gap : α)
  deriving DecidableEq, Repr

namespace Encoding

def defaultManual : Encoding α := manual (ofNat 10)

def defaultStitched : Encoding α := stitched (ofNat 2)

end Encoding

def manual (p : α) (a b c : V) : Except (ModelError V) (Model V α) := do
  let m := (Model.empty .binary).addVariables [(a, 0), (b, 0), (c, 0)]
  let m ← m.addInteraction a b p
  let m ← (m.addVariable c p).addInteraction a b (ofNat 1)
  let m ← (m.addVariable c (-ofNat 1)).addInteraction a c (-ofNat 1)
  m.addInteraction b c (-ofNat 1)

def holds : List Int → Bool
  | [a, b, c] => a * b = c
  | _ => false

def stitched (gap : α) (a b c : V) : Except (ProblemError V α) (Model V α) := do
  let constraint ← (Constraint.ofPredicate [a, b, c] .binary holds).mapError
    fun fault => .invalid (.constraint fault)
  let problem ← ((ConstraintProblem.empty .binary).addConstraint (constraint.withLabel "and")).mapError
    fun fault => .invalid (.constraint fault)
  problem.stitch gap

def encode (e : Encoding α) (a b c : V) : Except (ProblemError V α) (Model V α) :=
  match e with
  | .manual p => (manual p a b c).mapError .model
  | .stitched gap => stitched gap a b c

end BinaryQuadratic.AndGate
