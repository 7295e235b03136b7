import BinaryQuadratic.Model.Conversion
import BinaryQuadratic.Problem.Constraint
import BinaryQuadratic.Problem.Gadget

/-! A constraint problem becomes a model by adding up penalties, one for each constraint: zero on
the configurations that satisfy it and at least the gap on the others. -/

namespace BinaryQuadratic

open Coefficient

variable {V α : Type} [Coefficient α]

/-- The penalty of each configuration, by the number that its bits spell. Wide constraints are
refused before any configuration is looked at. -/
def Constraint.penalty (c : Constraint V) (gap : α) : Except (Unsupported V) (Nat → α) :=
  if c.configurations.isEmpty then .error (.noConfiguration c.name)
  else if maxPenaltyArity < c.arity then .error (.tooManyVariables c.name c.arity)
  else if (List.range (Nat.pow 2 c.arity)).all c.feasible then .ok fun _ => 0
  else if c.arity = maxPenaltyArity then
    match Gadget.match? c.feasible with
    | some g => .ok fun k => ((g.penalty k : Int) : α) * gap
    | none => .error (.noPenalty c.name)
  else .ok fun k => if c.feasible k then 0 else gap

def pairs {β : Type} : List β → List (β × β)
  | [] => []
  | b :: rest => rest.map (fun x => (b, x)) ++ pairs rest

namespace Model

variable [DecidableEq V]

def pairBias (table : Nat → α) (i j : Nat) : α :=
  table (Nat.pow 2 i + Nat.pow 2 j) - table (Nat.pow 2 i) - table (Nat.pow 2 j) + table 0

def addPairs (table : Nat → α) :
    List ((V × Nat) × (V × Nat)) → Model V α → Except (ModelError V) (Model V α)
  | [], m => .ok m
  | ((u, i), (v, j)) :: rest, m =>
    let q := pairBias table i j
    if q == 0 then addPairs table rest m
    else
      match m.addInteraction u v q with
      | .ok m => addPairs table rest m
      | .error e => .error e

/-- Adds the quadratic function of at most three variables that has the given values. -/
def addInterpolated (m : Model V α) (vs : List V) (table : Nat → α) :
    Except (ModelError V) (Model V α) :=
  let linear := vs.zipIdx.map fun (v, i) => (v, table (Nat.pow 2 i) - table 0)
  addPairs table (pairs vs.zipIdx) ((m.addOffset (table 0)).addVariables linear)

def addPenalties (gap : α) : List (Constraint V) → Model V α → Except (ProblemError V α) (Model V α)
  | [], m => .ok m
  | c :: rest, m =>
    match c.penalty gap with
    | .error cause => .error (.unsupported cause)
    | .ok table =>
      match m.addInterpolated c.scope table with
      | .error e => .error (.model e)
      | .ok m => addPenalties gap rest m

end Model

def ConstraintProblem.stitch [DecidableEq V] (p : ConstraintProblem V) (gap : α) :
    Except (ProblemError V α) (Model V α) :=
  if !isFinite gap ∨ gap ≤ 0 then .error (.invalid (.gap gap))
  else
    let m := (Model.empty .binary).addVariables (p.labels.keys.map fun v => (v, 0))
    (m.addPenalties gap p.constraints).map fun m => m.toVartype p.vartype

end BinaryQuadratic
