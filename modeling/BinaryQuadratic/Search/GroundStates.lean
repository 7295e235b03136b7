import BinaryQuadratic.Problem.Error
import BinaryQuadratic.SampleSet.Basic

/-! The lowest energy of a small model, found by trying all states. -/

namespace BinaryQuadratic.Search

open Coefficient

structure GroundStates (V α : Type) where
  energy : α
  samples : List (Sample V)

variable {V α : Type} [Coefficient α]

/-- Energies that differ by less than this count as equal. -/
def tolerance (energy : α) : α :=
  ofNat 1 / ofNat 1000000000 * maxNum (magnitude energy) (ofNat 1)

variable [DecidableEq V]

def spelledSample (m : Model V α) (k : Nat) : Sample V :=
  .ofList (m.labels.zipIdx.map fun (v, i) => (v, m.vartype.value (k.testBit i)))

@[specialize] def nearby (m : Model V α) (energies : List α) (energy : α) : List (Sample V) :=
  (energies.zipIdx.filter fun e => e.1 - energy ≤ tolerance energy).map fun e =>
    spelledSample m e.2

@[specialize] def groundStates (m : Model V α) : Except (ProblemError V α) (GroundStates V α) :=
  if maxEnumeratedVariables < m.numVariables then
    .error (.invalid (.search (.states m.numVariables)))
  else
    match m.energies? with
    | none => .error (.model .misfit)
    | some energies =>
      let energy := (least? energies).getD infinity
      .ok ⟨energy, nearby m energies energy⟩

end BinaryQuadratic.Search
