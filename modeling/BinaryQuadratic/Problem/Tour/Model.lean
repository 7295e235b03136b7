import BinaryQuadratic.Problem.Tour.Basic

/-! The model of a tour: distances between consecutive slots, and a penalty for each city and each
slot that is not used exactly once. -/

namespace BinaryQuadratic

open Coefficient

namespace Model

variable {V α : Type} [DecidableEq V] [Coefficient α]

def coupleAll (m : Model V α) (terms : List (V × V × α)) : Model V α :=
  terms.foldl (fun m (u, v, b) => m.couple u v b) m

/-- The terms of `p (Σ v - 1) ^ 2` that have a variable, as a bit equals its square. -/
def addSquare (p : α) : List V → Model V α → Model V α
  | [], m => m
  | v :: rest, m =>
    addSquare p rest
      ((m.addVariable v (-p)).coupleAll (rest.map fun w => (v, w, ofNat 2 * p)))

def addOneHot (m : Model V α) (vs : List V) (p : α) : Model V α := (addSquare p vs m).addOffset p

end Model

namespace Tour

variable {α : Type} [Coefficient α]

def cells (n : Nat) : List Cell :=
  (List.range n).flatMap fun city => (List.range n).map fun slot => ⟨city, slot⟩

/-- The distance between two cities is paid at each slot that the first is left from. -/
def distanceTerms (d : Distances α) : List (Cell × Cell × α) :=
  let n := d.length
  d.zipIdx.flatMap fun (row, i) =>
    row.zipIdx.flatMap fun (x, k) =>
      if i = k then []
      else (List.range n).map fun slot => (⟨i, slot⟩, ⟨k, (slot + 1) % n⟩, x)

def groups (n : Nat) : List (List Cell) :=
  (List.range n).flatMap fun a =>
    [(List.range n).map fun b => ⟨a, b⟩, (List.range n).map fun b => ⟨b, a⟩]

def weightedModel (d : Distances α) (p : α) : Model Cell α :=
  let m := (Model.empty .binary).addVariables ((cells d.length).map fun c => (c, 0))
  (groups d.length).foldl (fun m vs => m.addOneHot vs p) (m.coupleAll (distanceTerms d))

def penalty (d : Distances α) : Option α → Except (InvalidInput Cell α) α
  | some p => if isFinite p ∧ 0 < p then .ok p else .error (.penalty p)
  | none => .ok (defaultPenalty d)

def model (d : Distances α) (p : Option α) : Except (InvalidInput Cell α) (Model Cell α) := do
  (validate d).mapError .distances
  pure (weightedModel d (← penalty d p))

end Tour

end BinaryQuadratic
