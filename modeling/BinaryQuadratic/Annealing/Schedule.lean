import BinaryQuadratic.Annealing.Error
import BinaryQuadratic.Model.Basic

/-! Inverse temperatures: given one by one, or placed between two ends that are given or derived
from the coefficients of a model. -/

namespace BinaryQuadratic.Annealing

open Coefficient

inductive Betas (α : Type) where
  | auto
  | range (start stop : α)
  | schedule (betas : List α)
  deriving DecidableEq, Repr

inductive Interpolation where
  | geometric
  | linear
  deriving DecidableEq, Repr

variable {V α : Type} [Coefficient α]

namespace Betas

def isSchedule : Betas α → Bool
  | schedule _ => true
  | _ => false

def validate (b : Betas α) (i : Interpolation) : Except (InvalidSetting α) Unit :=
  match b with
  | auto => .ok ()
  | range start stop =>
    if !isFinite start || !isFinite stop then .error (.infiniteRange start stop)
    else if start < 0 ∨ stop < start then .error (.unorderedRange start stop)
    else if i = .geometric ∧ start == 0 then .error .zeroStart
    else .ok ()
  | schedule betas =>
    if betas.isEmpty then .error .emptySchedule
    else if betas.any fun b => !isFinite b || decide (b < 0) then .error .invalidBeta
    else .ok ()

end Betas

def maxField (m : Model V α) : α :=
  (m.biases.zip m.adjacency).foldl
    (fun largest (a, row) => maxNum largest (magnitude a + sum (row.values.map magnitude))) 0

def minBias? (m : Model V α) : Option α :=
  least? (((m.biases ++ m.interactions.map fun e => e.2.2).map magnitude).filter fun b => 0 < b)

/-- The hot end accepts the largest increase with probability one half, the cold end one of the
smallest bias with probability one in a hundred. Without biases there is no range. -/
def defaultRange? (m : Model V α) : Option (α × α) :=
  match minBias? m with
  | none => none
  | some smallest =>
    let width := ofNat m.vartype.width
    if 0 < maxField m ∧ isFinite smallest then
      some (log (ofNat 2) / (width * maxField m), log (ofNat 100) / (width * smallest))
    else none

def fallbackRange : α × α := (ofNat 1 / ofNat 10, ofNat 1)

/-- Constant ratio between neighbours. A single inverse temperature is the cold end. -/
def geometric (start stop : α) (count : Nat) : List α :=
  if count = 1 then [stop]
  else
    let r := log (stop / start) / (ofNat count - ofNat 1)
    (List.range count).map fun (i : Nat) => start * exp (ofNat i * r)

def linear (start stop : α) (count : Nat) : List α :=
  if count = 1 then [stop]
  else
    let step := (stop - start) / (ofNat count - ofNat 1)
    (List.range count).map fun (i : Nat) => start + ofNat i * step

def Interpolation.place (i : Interpolation) (range : α × α) (count : Nat) : List α :=
  match i with
  | geometric => Annealing.geometric range.1 range.2 count
  | linear => Annealing.linear range.1 range.2 count

def Betas.scheduleFor (b : Betas α) (i : Interpolation) (count : Nat) (m : Model V α) : List α :=
  match b with
  | schedule betas => betas
  | range start stop => i.place (start, stop) count
  | auto => i.place ((defaultRange? m).getD fallbackRange) count

end BinaryQuadratic.Annealing
