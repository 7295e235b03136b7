import BinaryQuadratic.Label
import BinaryQuadratic.Vartype

/-! Why a model cannot be built or evaluated. -/

namespace BinaryQuadratic

inductive ModelError (V : Type) where
  | selfInteraction (v : V)
  | unassigned (vs : List V)
  | outsideDomain (t : Vartype)
  | misfit
  deriving DecidableEq, Repr

def ModelError.message {V : Type} [Label V] : ModelError V → String
  | selfInteraction v =>
    "invalid model: variable " ++ Label.marked v ++ " cannot interact with itself"
  | unassigned vs =>
    "incomplete assignment: missing " ++
      Text.bracketed (vs.map fun v => Text.quoted (Label.marked v))
  | outsideDomain t =>
    "invalid argument: sample has values outside of the " ++ t.name ++ " domain"
  | misfit => "state does not fit the model"

end BinaryQuadratic
