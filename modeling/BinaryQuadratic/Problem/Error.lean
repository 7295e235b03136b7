import BinaryQuadratic.Annealing.Error
import BinaryQuadratic.Model.Error

/-! Why a problem has no model, or its data are refused. -/

namespace BinaryQuadratic

inductive ConstraintName (V : Type) where
  | label (s : String)
  | scope (vs : List V)
  deriving DecidableEq, Repr

inductive ConstraintFault (V : Type) where
  | noVariables
  | repeatedVariables (vs : List V)
  | wrongLength (configuration : List Int) (arity : Nat)
  | outsideDomain (configuration : List Int) (t : Vartype)
  | tooManyVariables (arity : Nat)
  | otherDomain (name : ConstraintName V) (constraint problem : Vartype)
  deriving DecidableEq, Repr

inductive DistanceFault where
  | empty
  | notSquare (row entries expected : Nat)
  | notFinite (start stop : Nat)
  deriving DecidableEq, Repr

inductive SearchFault where
  | states (n : Nat)
  | partitions (n : Nat)
  | tours (n : Nat)
  deriving DecidableEq, Repr

inductive Unsupported (V : Type) where
  | noConfiguration (name : ConstraintName V)
  | tooManyVariables (name : ConstraintName V) (arity : Nat)
  | noPenalty (name : ConstraintName V)
  deriving DecidableEq, Repr

inductive InvalidInput (V α : Type) where
  | constraint (fault : ConstraintFault V)
  | distances (fault : DistanceFault)
  | search (fault : SearchFault)
  | gap (g : α)
  | penalty (p : α)
  deriving DecidableEq, Repr

inductive ProblemError (V α : Type) where
  | model (e : ModelError V)
  | anneal (e : AnnealError α)
  | unsupported (cause : Unsupported V)
  | invalid (cause : InvalidInput V α)
  deriving DecidableEq, Repr

def maxEnumeratedVariables : Nat := 20

def maxEnumeratedCities : Nat := 10

def maxPenaltyArity : Nat := 3

section Messages

variable {V : Type} [Label V]

def ConstraintName.text : ConstraintName V → String
  | label s => Text.quoted s
  | scope vs => markedList vs

def configurationText (c : List Int) : String := Text.bracketed (c.map toString)

def ConstraintFault.message : ConstraintFault V → String
  | noVariables => "constraint has no variables"
  | repeatedVariables vs => "constraint variables " ++ markedList vs ++ " are not distinct"
  | wrongLength c arity =>
    "configuration " ++ configurationText c ++ " does not match " ++ toString arity ++
      " variables"
  | outsideDomain c t =>
    "configuration " ++ configurationText c ++ " is outside of the " ++ t.name ++ " domain"
  | tooManyVariables arity =>
    "cannot enumerate a constraint on " ++ toString arity ++ " variables"
  | otherDomain name constraint problem =>
    "constraint " ++ name.text ++ " is " ++ constraint.name ++ " but the problem is " ++
      problem.name

def DistanceFault.message : DistanceFault → String
  | empty => "distance matrix is empty"
  | notSquare row entries expected =>
    "distance matrix is not square: row " ++ toString row ++ " has " ++ toString entries ++
      " entries, expected " ++ toString expected
  | notFinite start stop =>
    "distance from " ++ toString start ++ " to " ++ toString stop ++ " is not finite"

def tooManyText (n : Nat) (noun : String) (limit : Nat) : String :=
  toString n ++ " " ++ noun ++ " are too many to enumerate, at most " ++ toString limit

def SearchFault.message : SearchFault → String
  | states n => tooManyText n "variables" maxEnumeratedVariables
  | partitions n => tooManyText n "nodes" maxEnumeratedVariables
  | tours n => tooManyText n "cities" maxEnumeratedCities

def Unsupported.message : Unsupported V → String
  | noConfiguration name => "constraint " ++ name.text ++ " has no feasible configuration"
  | tooManyVariables name arity =>
    "constraint " ++ name.text ++ " has " ++ toString arity ++ " variables, at most " ++
      toString maxPenaltyArity ++ " are supported"
  | noPenalty name => "no quadratic penalty for constraint " ++ name.text

def InvalidInput.message : InvalidInput V Float → String
  | constraint fault => fault.message
  | distances fault => fault.message
  | search fault => fault.message
  | gap g => "gap must be finite and positive, got " ++ Decimal.positional g
  | penalty p => "penalty must be finite and positive, got " ++ Decimal.positional p

def ProblemError.message : ProblemError V Float → String
  | model e => e.message
  | anneal e => e.message
  | unsupported cause => "unsupported constraint: " ++ cause.message
  | invalid cause => "invalid input: " ++ cause.message

end Messages

end BinaryQuadratic
