import BinaryQuadratic.Decimal.Text

/-! Why a run of the annealer does not take place. -/

namespace BinaryQuadratic

inductive InvalidSetting (α : Type) where
  | noReads
  | noSweepsPerBeta
  | noSweeps
  | unevenSweeps (sweeps perBeta : Nat)
  | infiniteRange (start stop : α)
  | unorderedRange (start stop : α)
  | zeroStart
  | emptySchedule
  | invalidBeta
  deriving DecidableEq, Repr

inductive AnnealError (α : Type) where
  | invalid (cause : InvalidSetting α)
  | cancelled
  | misfit
  deriving DecidableEq, Repr

def rangeText (start stop : Float) : String :=
  "beta range (" ++ Decimal.positional start ++ ", " ++ Decimal.positional stop ++ ")"

def InvalidSetting.message : InvalidSetting Float → String
  | noReads => "num_reads must be positive"
  | noSweepsPerBeta => "sweeps_per_beta must be positive"
  | noSweeps => "num_sweeps must be positive"
  | unevenSweeps sweeps perBeta =>
    "num_sweeps (" ++ toString sweeps ++ ") must be a multiple of sweeps_per_beta (" ++
      toString perBeta ++ ")"
  | infiniteRange start stop => rangeText start stop ++ " must be finite"
  | unorderedRange start stop =>
    rangeText start stop ++ " must satisfy 0 <= beta_start <= beta_end"
  | zeroStart => "geometric beta schedule needs a positive beta_start"
  | emptySchedule => "beta schedule is empty"
  | invalidBeta => "beta schedule must hold finite non-negative values"

def AnnealError.message : AnnealError Float → String
  | invalid cause => "invalid argument: " ++ cause.message
  | cancelled => "annealing was cancelled"
  | misfit => "state does not fit the model"

end BinaryQuadratic
