import BinaryQuadratic.Annealing.Chain
import BinaryQuadratic.Annealing.Schedule
import BinaryQuadratic.Randomness.ChaCha20
import BinaryQuadratic.Randomness.Pcg64
import BinaryQuadratic.SampleSet.Basic

/-! Simulated annealing of a model. Each read starts from a random state, with a generator of its
own whose seed is drawn from the generator of the whole run. -/

namespace BinaryQuadratic.Annealing

open Randomness

structure Annealer (α : Type) where
  numSweeps : Nat := 1000
  sweepsPerBeta : Nat := 1
  betas : Betas α := .auto
  interpolation : Interpolation := .geometric
  seed : Option UInt64 := none
  cancel : Option Bool := none

structure Run (V α : Type) where
  sweepsPerBeta : Nat
  schedule : List α
  couplings : Couplings α
  model : Model V α

variable {V α : Type} [Coefficient α]

def Run.read? {γ : Type} [Generator γ] (r : Run V α) (g : γ) : Option (Solution α) :=
  let (s, g) := PackedState.random r.couplings.size g
  match anneal? r.couplings r.schedule r.sweepsPerBeta s g with
  | some (s, _) => (Solution.ofState s).evaluated? r.model
  | none => none

namespace Annealer

def validate (a : Annealer α) : Except (InvalidSetting α) Unit :=
  if a.sweepsPerBeta = 0 then .error .noSweepsPerBeta
  else if a.betas.isSchedule then a.betas.validate a.interpolation
  else if a.numSweeps = 0 then .error .noSweeps
  else if a.numSweeps % a.sweepsPerBeta ≠ 0 then
    .error (.unevenSweeps a.numSweeps a.sweepsPerBeta)
  else a.betas.validate a.interpolation

def isCancelled (a : Annealer α) : Bool := a.cancel = some true

def run (a : Annealer α) (m : Model V α) : Run V α where
  sweepsPerBeta := a.sweepsPerBeta
  schedule := a.betas.scheduleFor a.interpolation (a.numSweeps / a.sweepsPerBeta) m
  couplings := .ofModel m
  model := m

def prepare (a : Annealer α) (m : Model V α) : Except (AnnealError α) (Run V α) :=
  match a.validate with
  | .ok () => .ok (a.run m)
  | .error cause => .error (.invalid cause)

def readSeeds (μ : Type) [Seedable μ] (seed : UInt64) (n : Nat) : List UInt64 :=
  (draws Generator.next n (Seedable.ofSeed seed : μ)).1

def readAll? (γ : Type) [Seedable γ] (r : Run V α) : List UInt64 → Option (List (Solution α))
  | [] => some []
  | seed :: rest => do
    let s ← r.read? (Seedable.ofSeed seed : γ)
    let ss ← readAll? γ r rest
    pure (s :: ss)

def collect? (μ γ : Type) [Seedable μ] [Seedable γ] (a : Annealer α) (m : Model V α)
    (numReads : Nat) (seed : UInt64) : Option (SampleSet V α) :=
  (readAll? γ (a.run m) (readSeeds μ seed numReads)).bind (SampleSet.ofSolutions? m)

/-- A model without variables has one state, which all reads end in. -/
def collectEmpty? (m : Model V α) (numReads : UInt64) : Option (SampleSet V α) :=
  SampleSet.ofSolutions? m [⟨.zeros 0, some m.offset, numReads⟩]

/-- Reads a model with a generator of type `μ` for the seeds and of type `γ` for each read. The
seed `fresh` is used if the settings have none. -/
def sampleWith (μ γ : Type) [Seedable μ] [Seedable γ] (a : Annealer α) (m : Model V α)
    (numReads fresh : UInt64) : Except (AnnealError α) (SampleSet V α) :=
  if numReads = 0 then .error (.invalid .noReads)
  else
    match a.validate with
    | .error cause => .error (.invalid cause)
    | .ok () =>
      if a.isCancelled then .error .cancelled
      else
        let set :=
          if m.isEmpty then collectEmpty? m numReads
          else collect? μ γ a m numReads.toNat (a.seed.getD fresh)
        match set with
        | some set => .ok set
        | none => .error .misfit

def sample (a : Annealer α) (m : Model V α) (numReads fresh : UInt64) :
    Except (AnnealError α) (SampleSet V α) :=
  sampleWith ChaCha20 Pcg64 a m numReads fresh

end Annealer

end BinaryQuadratic.Annealing
